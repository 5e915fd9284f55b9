import ModuleLowering.Proofs.Lower.FreshName
import ModuleLowering.Proofs.Lower.Scan

/-!
The text of a helper can be read whatever name is made up for it. So what a draft comes to is known
without reading it.
-/

set_option autoImplicit false

namespace ModuleLowering

/-- A name that is read as one word in front of a parenthesis, and taken for the name of something
that is declared. -/
structure IsFunctionName (name : String) : Prop where
  word : ∀ rest, readToken (name.toList ++ '(' :: rest) = (.word name false, '(' :: rest)
  bound : ∀ c : Cursor, c.token = .word name false →
    ∃ span, Parse.binder c = .done (.mk (.binder name none) span []) c.advance

section Word
variable {c d : Char} {cs acc rest : List Char} {fuel : Nat} {isEscaped : Bool}

theorem ne_of_isAsciiNameChar (other : isAsciiNameChar d = false)
    (named : isAsciiNameChar c = true) : c ≠ d := by
  rintro rfl
  rw [named] at other
  cases other

theorem readNameChars_cons (other : c ≠ '\\') :
    readNameChars (fuel + 1) isEscaped acc (c :: rest) =
      if (if acc.isEmpty then isNameStart c else isNamePart c) then readNameChars fuel isEscaped
      (c :: acc) rest else some (acc.reverse, isEscaped, c :: rest) := by
  rw [readNameChars]
  rintro _ rfl
  exact absurd rfl other

theorem readNameChars_append (named : ∀ x ∈ cs, isAsciiNameChar x = true) (begun : acc ≠ [])
    (room : cs.length < fuel) (ends : isNamePart d = false) (plain : d ≠ '\\') :
    readNameChars fuel isEscaped acc (cs ++ d :: rest) = some (acc.reverse ++ cs, isEscaped,
      d :: rest) := by
  obtain ⟨fuel, rfl⟩ : ∃ n, fuel = n + 1 := ⟨fuel - 1, by omega⟩
  have inside : acc.isEmpty = false := by simpa using begun
  induction cs generalizing acc fuel with
  | nil => simp [readNameChars_cons plain, inside, ends]
  | cons c cs ih =>
    obtain ⟨first, others⟩ := List.forall_mem_cons.mp named
    rw [List.length_cons] at room
    obtain ⟨fuel, rfl⟩ : ∃ n, fuel = n + 1 := ⟨fuel - 1, by omega⟩
    have turn : readNameChars (fuel + 1) isEscaped (c :: acc) (cs ++ d :: rest) =
        some ((c :: acc).reverse ++ cs, isEscaped, d :: rest) :=
        ih others (by simp) fuel (by omega) rfl
    simp [readNameChars_cons (ne_of_isAsciiNameChar (by decide) first), inside,
      isNamePart_of_isAsciiNameChar first, turn]

theorem readToken_underscore (named : ∀ x ∈ cs, isAsciiNameChar x = true) :
    readToken ('_' :: cs ++ '(' :: rest) = (.word (String.ofList ('_' :: cs)) false,
      '(' :: rest) := by
  have others : readNameChars ('_' :: (cs ++ '(' :: rest)).length false ['_'] (cs ++ '(' :: rest) =
      some ('_' :: cs, false, '(' :: rest) := by
    refine readNameChars_append named (by simp) ?_ (by decide) (by decide)
    rw [List.length_cons, List.length_append]
    omega
  have starts : isNameStart '_' = true := by decide
  have word : readWord? ('_' :: cs ++ '(' :: rest) = some (String.ofList ('_' :: cs), false,
    '(' :: rest) := by
    rw [readWord?, List.cons_append, readNameChars_cons (by decide)]
    simp only [List.isEmpty_nil, if_true, starts, others]
  rw [List.cons_append] at word ⊢
  simp only [readToken, word]
  rfl

end Word

/-- No word with a meaning of its own starts with an underscore. -/
theorem isReserved_of_head {name : String} (head : name.toList.head? = some '_') :
    isReserved name = false := by
  have other : ∀ w ∈ reservedWords, w.toList.head? ≠ some '_' := by decide
  have apart : name ∉ reservedWords := fun among => other name among head
  simpa [isReserved] using apart

theorem TakenNames.isFunctionName_candidate (hint : String) (i : Nat) :
    IsFunctionName (candidate hint i) where
  word rest := by
    have spelled := isAsciiNameChar_of_mem_candidate hint i
    obtain ⟨cs, chars⟩ : ∃ cs, (candidate hint i).toList = '_' :: cs :=
      List.head?_eq_some_iff.mp (candidate_head hint i)
    have name : String.ofList ('_' :: cs) = candidate hint i := by
      rw [← chars, String.ofList_toList]
    rw [chars] at spelled ⊢
    rw [readToken_underscore fun x among => spelled x (List.mem_cons_of_mem _ among), name]
  bound c here := by
    have head := candidate_head hint i
    have other (w : String) (apart : w.toList.head? ≠ some '_') : candidate hint i ≠ w := by
      rintro rfl
      exact apart head
    have yield := other "yield" (by decide)
    have await := other "await" (by decide)
    have name : Parse.variableName c = .done (candidate hint i) c.advance := by
      simp [Parse.variableName, Bind.bind, Parse.bind, Pure.pure, Parse.pure, Parse.token,
        Parse.around, Parse.guard, Parse.advance, here, isReserved_of_head head, yield, await]
    refine ⟨some ⟨c.start, c.advance.lastStop⟩, ?_⟩
    simp [Parse.binder, Bind.bind, Parse.bind, Parse.start, name]
    rfl

theorem Helper.read_text (h : Helper) {name : String} (legal : IsFunctionName name) :
    h.read (h.text name) = .ok (h.declare name) := by
  obtain ⟨cs, opens⟩ : ∃ cs, h.rest.toList = '(' :: cs :=
    List.head?_eq_some_iff.mp (by cases h <;> decide +kernel)
  have chars : (h.text name).toList = "function ".toList ++ (name.toList ++ h.rest.toList) := by
    rw [text, String.toList_append, String.toList_append, List.append_assoc]
  have word := legal.word cs
  rw [← opens] at word
  have behind : (h.text name).toList.drop 9 = name.toList ++ h.rest.toList := by
    rw [chars]
    rfl
  have front : (h.text name).toList.take 9 = "function ".toList := by
    rw [chars]
    rfl
  rw [read, behind, word]
  dsimp only
  obtain ⟨span, bound⟩ := legal.bound { Cursor.ofText ⟨false, false, false, false⟩ [] 9 with
    token := .word name false, after := h.rest.toList } rfl
  rw [bound]
  exact if_pos ⟨front, rfl⟩

theorem Draft.finish_eq {r : Draft} (legal : ∀ e ∈ r.helpers, IsFunctionName e.2) :
    r.finish = .ok (r.items.map Item.toNode) := by
  have declared : r.helpers.mapM (fun e => e.1.read (e.1.text e.2)) =
      .ok (r.helpers.map fun e => e.1.declare e.2) := by
    generalize r.helpers = helpers at legal
    induction helpers with
    | nil => rfl
    | cons e helpers ih =>
      obtain ⟨first, others⟩ := List.forall_mem_cons.mp legal
      rw [List.mapM_cons, ih others, e.1.read_text first]
      rfl
  rw [finish, declared, items, List.map_append, List.map_map, List.map_map]
  rfl

end ModuleLowering
