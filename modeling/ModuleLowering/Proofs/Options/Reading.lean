import Mathlib.Data.List.TakeWhile
import ModuleLowering.Proofs.Lower.FreshName
import ModuleLowering.Proofs.Options.Grammar

/-!
Reading options follows the grammar: of each reader, what it takes from the text and comes to is
what the grammar has, and it takes it whenever it is there.
-/

set_option autoImplicit false

namespace ModuleLowering

namespace OptionsText

/-- The reader came to a value, with the rest left. -/
def Leaves {α : Type} (x : Except Problem (α × Input)) (a : α) (rest : List Char) : Prop :=
  ∃ j, x = .ok (a, j) ∧ j.rest = rest

section Blanks
variable {i : Input}

theorem skipSpace_rest (i : Input) : i.skipSpace.rest = i.rest.dropWhile Input.isSpace := by
  have split := i.rest.takeWhile_append_dropWhile (p := Input.isSpace)
  calc i.rest.drop (i.rest.takeWhile Input.isSpace).length
      = (i.rest.takeWhile Input.isSpace ++ i.rest.dropWhile Input.isSpace).drop
          (i.rest.takeWhile Input.isSpace).length := by rw [split]
    _ = i.rest.dropWhile Input.isSpace := List.drop_left

theorem skipSpace_rest_eq_cons_iff {c : Char} {cs : List Char} :
    i.skipSpace.rest = c :: cs ↔ Input.isSpace c = false ∧ ∃ w, IsBlank w ∧
      i.rest = w ++ c :: cs := by
  rw [skipSpace_rest]
  constructor
  · intro left
    have solid := List.head?_dropWhile_not Input.isSpace i.rest
    rw [left] at solid
    refine ⟨solid, i.rest.takeWhile Input.isSpace, fun d => List.mem_takeWhile_imp, ?_⟩
    rw [← left, List.takeWhile_append_dropWhile]
  · rintro ⟨solid, w, blank, eq⟩
    rw [eq, List.dropWhile_append_of_pos blank, List.dropWhile_cons_of_neg (by simp [solid])]

theorem skipSpace_rest_eq_nil_iff : i.skipSpace.rest = [] ↔ IsBlank i.rest := by
  rw [skipSpace_rest, List.dropWhile_eq_nil_iff]
  rfl

theorem rest_skip_one {c : Char} {cs : List Char} (next : i.rest = c :: cs) :
    (i.skip 1).rest = cs := by
  rw [Input.skip, next]
  rfl

end Blanks

theorem readWord_iff {word : List Char} {i : Input} {rest : List Char} :
    (∃ j, readWord word i = .ok j ∧ j.rest = rest) ↔ i.rest = word ++ rest := by
  induction word generalizing i with
  | nil => simp [readWord]
  | cons c word ih =>
    rw [readWord]
    split
    · next none => simp [none, Input.fail]
    · next d ds next =>
      rw [next]
      split
      · next same => rw [ih, rest_skip_one next, same, List.cons_append, List.cons_inj_right]
      · next other => simp [Input.fail, other]

/-! Strings -/

theorem length_le_byteLength (cs : List Char) : cs.length ≤ byteLength cs := by
  have total (n : Nat) : n + cs.length ≤ cs.foldl (fun n c => n + c.utf8Size) n := by
    induction cs generalizing n with
    | nil => exact Nat.le_refl n
    | cons c cs ih =>
      have step := ih (n + c.utf8Size)
      have size := c.utf8Size_pos
      rw [List.length_cons, List.foldl_cons]
      omega
  simpa [byteLength] using total 0

theorem utf8Size_of_hexValue? {c : Char} {v : Nat} (hex : hexValue? c = some v) :
    c.utf8Size = 1 := by
  refine forall_isAsciiNameChar (fun c => c.utf8Size = 1) (by decide) ?_
  unfold hexValue? at hex
  simp only [isAsciiNameChar, isAsciiLetter]
  split at hex
  · next digit => simp [digit]
  · split at hex
    · next lower =>
      simp only [Bool.and_eq_true, decide_eq_true_eq] at lower
      simp [lower.1, Char.le_trans lower.2 (by decide : 'f' ≤ 'z')]
    · split at hex
      · next upper =>
        simp only [Bool.and_eq_true, decide_eq_true_eq] at upper
        simp [upper.1, Char.le_trans upper.2 (by decide : 'F' ≤ 'Z')]
      · cases hex

theorem byteLength_of_natOfDigits? {cs : List Char} {n : Nat} (hex : natOfDigits? 16 cs = some n) :
    byteLength cs = cs.length := by
  have total (start k : Nat) (read : cs.foldlM (fun n c => (digitValue? 16 c).map (n * 16 + ·))
    start = some n) :
      cs.foldl (fun n c => n + c.utf8Size) k = k + cs.length := by
    clear hex
    induction cs generalizing start k with
    | nil => rfl
    | cons c cs ih =>
      rw [List.foldlM_cons] at read
      obtain ⟨next, first, rest⟩ := Option.bind_eq_some_iff.mp read
      obtain ⟨v, digit, -⟩ := Option.map_eq_some_iff.mp first
      rw [List.foldl_cons, ih next _ rest, utf8Size_of_hexValue?
        (Option.filter_eq_some_iff.mp digit).1, List.length_cons]
      omega
  simpa [byteLength] using total 0 0 hex

theorem readHex_iff {i : Input} {n : Nat} {rest : List Char} :
    Leaves (readHex i) n rest ↔ ∃ cs, IsHex n cs ∧ i.rest = cs ++ rest := by
  unfold readHex Leaves
  dsimp only
  constructor
  · rintro ⟨j, read, rfl⟩
    split at read
    · cases read
    · next long =>
      split at read
      · next value hex =>
        cases read
        refine ⟨i.rest.take 4, ⟨?_, hex⟩, (List.take_append_drop 4 i.rest).symm⟩
        -- Hexadecimal digits are one byte each, so that four bytes of them are four characters.
        rw [List.length_take]
        by_contra few
        have whole : i.rest.take 4 = i.rest := List.take_of_length_le (by omega)
        rw [whole] at hex
        have bytes := byteLength_of_natOfDigits? hex
        omega
      · cases read
  · rintro ⟨cs, ⟨four, hex⟩, eq⟩
    have taken : i.rest.take 4 = cs := by rw [eq, ← four, List.take_left]
    have long : ¬ byteLength i.rest < 4 := by
      have bytes := length_le_byteLength i.rest
      rw [eq, List.length_append] at bytes
      rw [eq]
      omega
    rw [if_neg long, taken, hex]
    exact ⟨_, rfl, by rw [Input.skip, eq, ← four, List.drop_left]⟩

theorem readUnicode_iff {i : Input} {c : Char} {rest : List Char} :
    Leaves (readUnicode i) c rest ↔ ∃ cs, IsCode c cs ∧ i.rest = cs ++ rest := by
  unfold readUnicode Leaves
  simp only [bind_eq_ok_iff]
  constructor
  · -- From the reader to the grammar: it refuses a low surrogate that comes first, and asks for
    -- one behind a high one.
    rintro ⟨j, ⟨⟨n, k⟩, read, here⟩, rfl⟩
    obtain ⟨cs, hex, eq⟩ := readHex_iff.mp ⟨k, read, rfl⟩
    dsimp only at here
    split at here
    · cases here
    · next notLow =>
      split at here
      · next high =>
        split at here
        · next ds next =>
          obtain ⟨⟨low, l⟩, again, here⟩ := bind_eq_ok_iff.mp here
          obtain ⟨ds', hex', eq'⟩ := readHex_iff.mp ⟨l, again, rfl⟩
          dsimp only at here
          split at here
          · cases here
          · next isLow =>
            obtain ⟨rfl, rfl⟩ := Prod.mk.inj (Except.ok.inj here)
            refine ⟨_, .pair hex hex' (by simpa using high) (by simp at isLow; omega), ?_⟩
            have behind : (k.skip 2).rest = ds := by rw [Input.skip, next]; rfl
            rw [eq, next, ← behind, eq']
            simp
        all_goals cases here
      · next notHigh =>
        cases here
        refine ⟨cs, .unit hex ?_, eq⟩
        simp only [Bool.and_eq_true, decide_eq_true_eq] at notLow notHigh
        omega
  · rintro ⟨cs, coded, eq⟩
    cases coded with
    | unit hex whole =>
      obtain ⟨k, read, left⟩ := readHex_iff.mpr ⟨cs, hex, eq⟩
      refine ⟨k, ⟨_, read, ?_⟩, left⟩
      dsimp only
      rw [if_neg (by simp; omega), if_neg (by simp; omega)]
    | pair first second isHigh isLow =>
      next high low ds ds' =>
      obtain ⟨k, read, left⟩ := readHex_iff.mpr ⟨ds, first, by rw [eq, List.append_assoc]⟩
      have behind : (k.skip 2).rest = ds' ++ rest := by rw [Input.skip, left]; rfl
      obtain ⟨l, again, left'⟩ := readHex_iff.mpr ⟨ds', second, behind⟩
      refine ⟨l, ⟨_, read, ?_⟩, left'⟩
      dsimp only
      rw [if_neg (by simp; omega), if_pos (by simp; omega), left]
      simp only [List.cons_append]
      rw [again]
      simp [bind, Except.bind]
      omega

theorem readEscape_iff {i : Input} {c : Char} {rest : List Char} :
    Leaves (readEscape i) c rest ↔ ∃ cs, IsEscape c cs ∧ i.rest = cs ++ rest := by
  unfold readEscape
  cases next : i.rest with
  | nil =>
    refine iff_of_false ?_ ?_
    · rintro ⟨j, read, -⟩
      cases read
    · rintro ⟨cs, escape, eq⟩
      cases escape <;> cases eq
  | cons mark ds =>
    have behind := rest_skip_one next
    -- An escape is told by its first character.
    have split : (∃ cs, IsEscape c cs ∧ mark :: ds = cs ++ rest) ↔
        (shortEscapes.lookup mark = some c ∧ ds = rest) ∨ mark = 'u' ∧ ∃ cs, IsCode c cs ∧
        ds = cs ++ rest := by
      constructor
      · rintro ⟨cs, escape, eq⟩
        cases escape with
        | short known =>
          cases eq
          exact .inl ⟨known, rfl⟩
        | code coded =>
          cases eq
          exact .inr ⟨rfl, _, coded, rfl⟩
      · rintro (⟨known, rfl⟩ | ⟨rfl, cs, coded, rfl⟩)
        · exact ⟨_, .short known, rfl⟩
        · exact ⟨_, .code coded, rfl⟩
    have short {d : Char} (known : shortEscapes.lookup mark = some d) (notCode : mark ≠ 'u') :
        Leaves (.ok (d, i.skip 1)) c rest ↔
          (shortEscapes.lookup mark = some c ∧ ds = rest) ∨ mark = 'u' ∧ ∃ cs, IsCode c cs ∧
          ds = cs ++ rest := by
      simp [Leaves, known, notCode, behind]
    rw [split]
    dsimp only
    split
    all_goals try exact short rfl (by decide)
    · simp [readUnicode_iff, behind, shortEscapes, List.lookup_cons]
    · next notCode =>
      have unknown : shortEscapes.lookup mark = none := by
        simp_all [List.lookup_eq_none_iff, shortEscapes]
      have other : mark ≠ 'u' := notCode
      simp [Leaves, unknown, other]

/-- What is left of a string behind the characters `acc` read so far, up to its quote and the
rest. -/
def Closes (acc : List Char) (s : String) (rest cs : List Char) : Prop :=
  ∃ t u, Spells t u ∧ s = String.ofList (acc.reverse ++ t) ∧ cs = u ++ '"' :: rest

theorem closes_cons_iff {acc : List Char} {s : String} {rest : List Char} {c : Char}
    {cs : List Char} :
    Closes acc s rest (c :: cs) ↔ (c = '"' ∧ s = String.ofList acc.reverse ∧ cs = rest) ∨
      (c = '\\' ∧ ∃ d escape ds, IsEscape d escape ∧ cs = escape ++ ds ∧
        Closes (d :: acc) s rest ds) ∨
      (c ≠ '"' ∧ c ≠ '\\' ∧ 0x20 ≤ c.toNat ∧ Closes (c :: acc) s rest cs) := by
  constructor
  · rintro ⟨t, u, spells, rfl, eq⟩
    cases spells with
    | nil =>
      cases eq
      exact .inl ⟨rfl, by simp, rfl⟩
    | plain notQuote notBackslash visible spells =>
      cases eq
      exact .inr (.inr ⟨notQuote, notBackslash, visible, _, _, spells, by simp, rfl⟩)
    | escaped escape spells =>
      cases eq
      exact .inr (.inl ⟨rfl, _, _, _, escape, List.append_assoc .., _, _, spells, by simp, rfl⟩)
  · rintro (⟨rfl, rfl, rfl⟩ | ⟨rfl, d, escape, ds, escaped, rfl, t, u, spells, rfl, rfl⟩ |
      ⟨notQuote, notBackslash, visible, t, u, spells, rfl, rfl⟩)
    · exact ⟨[], [], .nil, by simp, rfl⟩
    · exact ⟨d :: t, _, .escaped escaped spells, by simp, by simp⟩
    · exact ⟨c :: t, _, .plain notQuote notBackslash visible spells, by simp, rfl⟩

theorem readString_iff {fuel : Nat} {acc : List Char} {i : Input} {s : String} {rest : List Char}
    (enough : i.rest.length < fuel) : Leaves (readString fuel acc i) s rest ↔
    Closes acc s rest i.rest := by
  -- Each step takes a character at least, so that the bound never falls below what is left.
  induction fuel generalizing acc i with
  | zero => cases enough
  | succ fuel ih =>
    rw [readString]
    split
    · next next =>
      rw [next]
      refine iff_of_false ?_ ?_
      · rintro ⟨j, read, -⟩
        cases read
      · rintro ⟨t, u, -, -, eq⟩
        simp at eq
    · next ds next =>
      rw [next, closes_cons_iff]
      simp [Leaves, rest_skip_one next, eq_comm]
    · next ds next =>
      have behind := rest_skip_one next
      rw [next, List.length_cons] at enough
      rw [next, closes_cons_iff]
      have escaped : Leaves (readEscape (i.skip 1) >>= fun e => readString fuel (e.1 :: acc) e.2) s
        rest ↔
          ∃ d escape ds', IsEscape d escape ∧ ds = escape ++ ds' ∧
          Closes (d :: acc) s rest ds' := by
        simp only [Leaves, bind_eq_ok_iff]
        constructor
        · rintro ⟨j, ⟨⟨d, k⟩, read, here⟩, left⟩
          obtain ⟨escape, isEscape, eq⟩ := readEscape_iff.mp ⟨k, read, rfl⟩
          rw [behind] at eq
          have few : k.rest.length < fuel := by
            rw [eq, List.length_append] at enough
            omega
          exact ⟨d, escape, k.rest, isEscape, eq, (ih few).mp ⟨j, here, left⟩⟩
        · rintro ⟨d, escape, ds', isEscape, eq, closes⟩
          obtain ⟨k, read, left⟩ := readEscape_iff.mpr ⟨escape, isEscape, behind.trans eq⟩
          have few : k.rest.length < fuel := by
            rw [left]
            rw [eq, List.length_append] at enough
            omega
          obtain ⟨j, here, left'⟩ := (ih few).mpr (left ▸ closes)
          exact ⟨j, ⟨_, read, here⟩, left'⟩
      simpa using escaped
    · next c ds notQuote notBackslash next =>
      have behind := rest_skip_one next
      rw [next, List.length_cons] at enough
      rw [next, closes_cons_iff]
      have quote : c ≠ '"' := notQuote
      have backslash : c ≠ '\\' := notBackslash
      split
      · next hidden =>
        have visible : ¬ 0x20 ≤ c.toNat := by omega
        simp [Leaves, Input.fail, quote, backslash, visible]
      · next shown =>
        have visible : 0x20 ≤ c.toNat := by omega
        rw [ih (by rw [behind]; omega), behind]
        simp [quote, backslash, visible]

/-! Members -/

theorem wrongType_ne_ok {α : Type} {expected : String} {i : Input} {a : α} :
    wrongType expected i ≠ .ok a := by
  intro read
  unfold wrongType at read
  dsimp only at read
  repeat' split at read
  all_goals first
    | cases read
    | obtain ⟨_, -, failed⟩ := bind_eq_ok_iff.mp read
      cases failed

theorem leaves_word_iff {α : Type} {word : List Char} {i : Input} {a b : α} {rest : List Char} :
    Leaves (readWord word i >>= fun j => .ok (a, j)) b rest ↔ a = b ∧ i.rest = word ++ rest := by
  rw [← readWord_iff]
  simp only [Leaves, bind_eq_ok_iff, Except.ok.injEq, Prod.mk.injEq]
  constructor
  · rintro ⟨j, ⟨k, read, rfl, rfl⟩, left⟩
    exact ⟨rfl, k, read, left⟩
  · rintro ⟨rfl, k, read, left⟩
    exact ⟨k, ⟨k, read, rfl, rfl⟩, left⟩

theorem readBool_iff {i : Input} {b : Bool} {rest : List Char} :
    Leaves (readBool i) b rest ↔ ∃ w, IsBlank w ∧ i.rest = w ++ (boolText b ++ rest) := by
  have skipped : (∃ w, IsBlank w ∧ i.rest = w ++ (boolText b ++ rest)) ↔
    i.skipSpace.rest = boolText b ++ rest := by
    cases b <;> simp only [boolText, List.cons_append, skipSpace_rest_eq_cons_iff] <;>
      simp [Input.isSpace]
  rw [skipped]
  unfold readBool
  dsimp only
  generalize i.skipSpace = k
  split
  · next next => cases b <;> simp [Leaves, Input.fail, next, boolText]
  · next ds next =>
    rw [next, leaves_word_iff, rest_skip_one next]
    cases b <;> simp [boolText]
  · next ds next =>
    rw [next, leaves_word_iff, rest_skip_one next]
    cases b <;> simp [boolText]
  · next notTrue notFalse =>
    refine iff_of_false ?_ fun eq => ?_
    · rintro ⟨j, read, -⟩
      exact wrongType_ne_ok read
    · cases b with
      | true => exact notTrue _ eq
      | false => exact notFalse _ eq

section Leads
variable {i : Input} {isFirst : Bool} {c : Char} {cs rest : List Char}

theorem leads_true_iff : (Input.isSpace c = false ∧ ∃ lead, Leads true lead ∧
    i.rest = lead ++ c :: cs) ↔
    i.skipSpace.rest = c :: cs := skipSpace_rest_eq_cons_iff.symm

theorem leads_false_iff : (Input.isSpace c = false ∧ ∃ lead, Leads false lead ∧
    i.rest = lead ++ c :: cs) ↔
    ∃ ds, i.skipSpace.rest = ',' :: ds ∧ (i.skipSpace.skip 1).skipSpace.rest = c :: cs := by
  constructor
  · rintro ⟨solid, _, ⟨w, w', blank, blank', rfl⟩, eq⟩
    have first : i.skipSpace.rest = ',' :: (w' ++ c :: cs) :=
      skipSpace_rest_eq_cons_iff.mpr ⟨rfl, w, blank, by rw [eq]; simp⟩
    exact ⟨_, first, skipSpace_rest_eq_cons_iff.mpr ⟨solid, w', blank', rest_skip_one first⟩⟩
  · rintro ⟨ds, first, second⟩
    obtain ⟨-, w, blank, eq⟩ := skipSpace_rest_eq_cons_iff.mp first
    obtain ⟨solid, w', blank', eq'⟩ := skipSpace_rest_eq_cons_iff.mp second
    rw [rest_skip_one first] at eq'
    exact ⟨solid, _, ⟨w, w', blank, blank', rfl⟩, by rw [eq, eq']; simp⟩

theorem nextElement_true_iff : Leaves (nextElement isFirst i) true (c :: cs) ↔
    c ≠ ']' ∧ Input.isSpace c = false ∧ ∃ lead, Leads isFirst lead ∧ i.rest = lead ++ c :: cs := by
  unfold nextElement
  cases isFirst with
  | true =>
    rw [leads_true_iff]
    dsimp only
    generalize i.skipSpace = k
    split <;> simp_all [Leaves, Input.fail] <;> grind
  | false =>
    rw [leads_false_iff]
    dsimp only
    generalize i.skipSpace = k
    generalize (k.skip 1).skipSpace = l
    split
    · simp_all [Leaves, Input.fail]
    · simp_all [Leaves]
    · split
      · cases ‹false = true›
      · split
        · split <;> simp_all [Leaves, Input.fail, Input.failNext] <;> grind
        · simp_all [Leaves, Input.failNext]

theorem nextElement_false_iff :
    Leaves (nextElement isFirst i) false rest ↔ i.skipSpace.rest = rest ∧
      ∃ ds, rest = ']' :: ds := by
  unfold nextElement
  dsimp only
  generalize i.skipSpace = k
  generalize (k.skip 1).skipSpace = l
  repeat' split
  all_goals
    simp_all [Leaves, Input.fail, Input.failNext]
    try grind

theorem nextKey_true_iff : Leaves (nextKey isFirst i) true (c :: cs) ↔
    c = '"' ∧ Input.isSpace c = false ∧ ∃ lead, Leads isFirst lead ∧ i.rest = lead ++ c :: cs := by
  unfold nextKey
  cases isFirst with
  | true =>
    rw [leads_true_iff]
    dsimp only
    generalize i.skipSpace = k
    repeat' split
    all_goals
      simp_all [Leaves, Input.fail, Input.failNext]
      try grind
  | false =>
    rw [leads_false_iff]
    dsimp only
    generalize i.skipSpace = k
    generalize (k.skip 1).skipSpace = l
    repeat' split
    all_goals
      simp_all [Leaves, Input.fail, Input.failNext]
      try grind

theorem nextKey_false_iff :
    Leaves (nextKey isFirst i) false rest ↔ i.skipSpace.rest = rest ∧
      ∃ ds, rest = '\x7d' :: ds := by
  unfold nextKey
  dsimp only
  generalize i.skipSpace = k
  generalize (k.skip 1).skipSpace = l
  repeat' split
  all_goals
    simp_all [Leaves, Input.fail, Input.failNext]
    try grind

end Leads

theorem endList_iff {i : Input} {rest : List Char} :
    (∃ j, endList i = .ok j ∧ j.rest = rest) ↔ i.skipSpace.rest = ']' :: rest := by
  unfold endList
  dsimp only
  generalize i.skipSpace = k
  split
  · next next => simp [next, rest_skip_one next]
  all_goals simp_all [Input.fail, Input.failNext]

theorem readColon_iff {i : Input} {rest : List Char} :
    (∃ j, readColon i = .ok j ∧ j.rest = rest) ↔ ∃ w, IsBlank w ∧ i.rest = w ++ ':' :: rest := by
  have skipped : (∃ w, IsBlank w ∧ i.rest = w ++ ':' :: rest) ↔ i.skipSpace.rest = ':' :: rest := by
    simp [skipSpace_rest_eq_cons_iff, Input.isSpace]
  rw [skipped]
  unfold readColon
  dsimp only
  generalize i.skipSpace = k
  split
  · next next => simp [next, rest_skip_one next]
  all_goals simp_all [Input.fail, Input.failNext]

section Lists
variable {α : Type} {Member : α → List Char → Prop} {close : Char} {i : Input} {isFirst : Bool}
    {rest : List Char}

theorem lists_nil_iff (solid : Input.isSpace close = false) :
    (∃ cs, Lists Member close isFirst [] cs ∧ i.rest = cs ++ rest) ↔
      i.skipSpace.rest = close :: rest := by
  rw [skipSpace_rest_eq_cons_iff]
  constructor
  · rintro ⟨_, ⟨blank⟩, eq⟩
    exact ⟨solid, _, blank, by rw [eq, List.append_assoc]; rfl⟩
  · rintro ⟨-, w, blank, eq⟩
    exact ⟨_, .done blank, by rw [eq, List.append_assoc]; rfl⟩

theorem lists_cons_iff {a : α} {as : List α} : (∃ cs, Lists Member close isFirst (a :: as) cs ∧
    i.rest = cs ++ rest) ↔
    ∃ lead cs left, Leads isFirst lead ∧ Member a cs ∧ i.rest = lead ++ (cs ++ left) ∧
      ∃ ds, Lists Member close false as ds ∧ left = ds ++ rest := by
  constructor
  · rintro ⟨_, _ | ⟨leads, here, lists⟩, eq⟩
    exact ⟨_, _, _, leads, here, by rw [eq, List.append_assoc, List.append_assoc], _, lists, rfl⟩
  · rintro ⟨lead, cs, _, leads, here, eq, ds, lists, rfl⟩
    exact ⟨_, .member leads here lists, by rw [eq, List.append_assoc, List.append_assoc]⟩

end Lists

theorem readElement_iff {isFirst : Bool} {i : Input} {b : Bool} {rest : List Char} :
    (∃ j, nextElement isFirst i = .ok (true, j) ∧ Leaves (readBool j) b rest) ↔
      ∃ lead, Leads isFirst lead ∧ i.rest = lead ++ (boolText b ++ rest) := by
  obtain ⟨c, cs, text, solid, inside⟩ : ∃ c cs, boolText b = c :: cs ∧
    Input.isSpace c = false ∧ c ≠ ']' := by
    cases b <;> exact ⟨_, _, rfl, rfl, by decide⟩
  constructor
  · rintro ⟨j, next, bool⟩
    obtain ⟨w, blank, eq⟩ := readBool_iff.mp bool
    cases w with
    | nil =>
      rw [text] at eq ⊢
      exact (nextElement_true_iff.mp ⟨j, next, eq⟩).2.2
    | cons d w =>
      -- The element is announced at its first character, so there are no blanks left.
      have solid := (nextElement_true_iff.mp ⟨j, next, eq⟩).2.1
      rw [blank d List.mem_cons_self] at solid
      cases solid
  · rintro ⟨lead, leads, eq⟩
    rw [text] at eq
    obtain ⟨j, next, left⟩ := nextElement_true_iff.mpr ⟨inside, solid, lead, leads, eq⟩
    exact ⟨j, next, readBool_iff.mpr ⟨[], by simp [IsBlank], by rw [left, text]; rfl⟩⟩

theorem readElements_nil_iff {count : Nat} {isFirst : Bool} {i j : Input} :
    readElements (count + 1) isFirst i = .ok ([], j) ↔ nextElement isFirst i = .ok (false, j) := by
  simp only [readElements, bind_eq_ok_iff, Prod.exists, Bool.exists_bool, if_true,
    Bool.false_eq_true, if_false]
  simp

theorem readElements_cons_iff {count : Nat} {isFirst : Bool} {i j : Input} {b : Bool}
    {bs : List Bool} :
    readElements (count + 1) isFirst i = .ok (b :: bs, j) ↔
      ∃ k l, nextElement isFirst i = .ok (true, k) ∧
      readBool k = .ok (b, l) ∧ readElements count false l = .ok (bs, j) := by
  simp only [readElements, bind_eq_ok_iff, Prod.exists, Bool.exists_bool, if_true,
    Bool.false_eq_true, if_false]
  cases b <;> simp

theorem readElements_iff {count : Nat} {isFirst : Bool} {i : Input} {bs : List Bool}
    {rest : List Char} :
    (∃ j, readElements count isFirst i = .ok (bs, j) ∧ ∃ k, endList j = .ok k ∧ k.rest = rest) ↔
      bs.length ≤ count ∧ ∃ cs, Lists IsElement ']' isFirst bs cs ∧ i.rest = cs ++ rest := by
  simp only [endList_iff]
  -- Where no more elements are asked for, the end is read all the same, and refuses whatever else
  -- is there.
  induction count generalizing isFirst i bs with
  | zero =>
    cases bs with
    | nil =>
      rw [lists_nil_iff rfl]
      simp [readElements]
    | cons => simp [readElements]
  | succ count ih =>
    cases bs with
    | nil =>
      rw [lists_nil_iff rfl]
      simp only [readElements_nil_iff]
      constructor
      · rintro ⟨j, next, closed⟩
        obtain ⟨eq, ds, here⟩ := nextElement_false_iff.mp ⟨j, next, rfl⟩
        refine ⟨Nat.zero_le _, ?_⟩
        rw [skipSpace_rest, here] at closed
        rw [eq, here]
        exact closed
      · rintro ⟨-, closed⟩
        obtain ⟨j, next, left⟩ := nextElement_false_iff.mpr ⟨closed, rest, rfl⟩
        exact ⟨j, next, by rw [skipSpace_rest, left]; rfl⟩
    | cons b bs =>
      rw [lists_cons_iff]
      simp only [readElements_cons_iff]
      constructor
      · rintro ⟨j, ⟨k, l, next, bool, more⟩, closed⟩
        obtain ⟨lead, leads, eq⟩ := readElement_iff.mp ⟨k, next, l, bool, rfl⟩
        obtain ⟨few, ds, lists, left⟩ := ih.mp ⟨j, more, closed⟩
        exact ⟨Nat.succ_le_succ few, lead, _, _, leads, rfl, eq, ds, lists, left⟩
      · rintro ⟨few, lead, _, left, leads, rfl, eq, ds, lists, behind⟩
        obtain ⟨k, next, l, bool, rfl⟩ := readElement_iff.mpr ⟨lead, leads, eq⟩
        obtain ⟨j, more, closed⟩ := ih.mpr ⟨Nat.le_of_succ_le_succ few, ds, lists, behind⟩
        exact ⟨j, ⟨k, l, next, bool, more⟩, closed⟩

theorem Key.ofName?_eq_some_iff {name : String} {key : Key} :
    ofName? name = some key ↔ name = key.name := by
  constructor
  · intro known
    unfold ofName? at known
    split at known <;> cases known <;> rfl
  · rintro rfl
    cases key <;> rfl

theorem readStringHere_iff {i : Input} {s : String} {rest : List Char} :
    Leaves (readStringHere i) s rest ↔ Closes [] s rest i.rest.tail := by
  have behind : (i.skip 1).rest = i.rest.tail := List.drop_one
  rw [readStringHere, readString_iff, behind]
  rw [behind, List.length_tail]
  omega

theorem readPair_iff {isFirst : Bool} {i : Input} {key : Key} {b : Bool} {rest : List Char} :
    (∃ k l m, nextKey isFirst i = .ok (true, k) ∧ readStringHere k = .ok (key.name, l) ∧
      readColon l = .ok m ∧
        Leaves (readBool m) b rest) ↔
      ∃ lead cs, Leads isFirst lead ∧ IsPair (key, b) cs ∧ i.rest = lead ++ (cs ++ rest) := by
  constructor
  · rintro ⟨k, l, m, next, name, colon, bool⟩
    obtain ⟨t, u, spells, named, quoted⟩ := readStringHere_iff.mp ⟨l, name, rfl⟩
    obtain ⟨w, blank, eq⟩ := readColon_iff.mp ⟨m, colon, rfl⟩
    obtain ⟨w', blank', eq'⟩ := readBool_iff.mp bool
    cases start : k.rest with
    | nil => simp [start] at quoted
    | cons c cs =>
      obtain ⟨rfl, -, lead, leads, whole⟩ := nextKey_true_iff.mp ⟨k, next, start⟩
      have isName : key.name.toList = t := by rw [named, String.toList_ofList]; rfl
      refine ⟨lead, _, leads, ⟨u, w, w', isName ▸ spells, blank, blank', rfl⟩, ?_⟩
      rw [start, List.tail_cons] at quoted
      rw [whole, quoted, eq, eq']
      simp
  · rintro ⟨lead, _, leads, ⟨u, w, w', spells, blank, blank', rfl⟩, whole⟩
    obtain ⟨k, next, start⟩ := nextKey_true_iff.mpr ⟨rfl, rfl, lead, leads, whole⟩
    have quoted : k.rest.tail = u ++ '"' :: (w ++ ':' :: (w' ++ (boolText b ++ rest))) := by
      rw [start]
      simp
    obtain ⟨l, name, left⟩ :=
      readStringHere_iff.mpr ⟨_, u, spells, String.ofList_toList.symm, quoted⟩
    obtain ⟨m, colon, left'⟩ := readColon_iff.mpr ⟨w, blank, left⟩
    exact ⟨k, l, m, next, name, colon, readBool_iff.mpr ⟨w', blank', left'⟩⟩

theorem readPairs_succ_iff {fuel : Nat} {seen : List Key} {o o' : Options} {i j : Input} :
    readPairs (fuel + 1) seen o i = .ok (o', j) ↔
      (∃ k, nextKey seen.isEmpty i = .ok (false, k) ∧ o' = o ∧ j = k.skip 1) ∨
      ∃ key b n, key ∉ seen ∧
        (∃ k l m, nextKey seen.isEmpty i = .ok (true, k) ∧ readStringHere k = .ok (key.name, l) ∧
          readColon l = .ok m ∧
          readBool m = .ok (b, n)) ∧
        readPairs fuel (key :: seen) (set o key b) n = .ok (o', j) := by
  simp only [readPairs, bind_eq_ok_iff]
  constructor
  · rintro ⟨⟨more, k⟩, next, here⟩
    cases more with
    | false =>
      cases here
      exact .inl ⟨k, next, rfl, rfl⟩
    | true =>
      obtain ⟨⟨name, l⟩, read, here⟩ := bind_eq_ok_iff.mp here
      dsimp only at here
      split at here
      · cases here
      · next key known =>
        obtain rfl := Key.ofName?_eq_some_iff.mp known
        split at here
        · cases here
        · next unseen =>
          obtain ⟨m, colon, here⟩ := bind_eq_ok_iff.mp here
          obtain ⟨⟨b, n⟩, bool, here⟩ := bind_eq_ok_iff.mp here
          exact .inr ⟨key, b, n, by simpa using unseen, ⟨k, l, m, next, read, colon, bool⟩, here⟩
  · rintro (⟨k, next, rfl, rfl⟩ | ⟨key, b, n, unseen, ⟨k, l, m, next, read, colon, bool⟩, here⟩)
    · exact ⟨_, next, rfl⟩
    · refine ⟨_, next, bind_eq_ok_iff.mpr ⟨_, read, ?_⟩⟩
      simp only [Key.ofName?_eq_some_iff.mpr rfl]
      rw [if_neg (by simpa using unseen)]
      exact bind_eq_ok_iff.mpr ⟨_, colon, bind_eq_ok_iff.mpr ⟨_, bool, here⟩⟩

theorem length_le_three_of_nodup {seen : List Key} (distinct : seen.Nodup) : seen.length ≤ 3 := by
  have within : seen ⊆ [.strict, .loose, .addExports] := by
    intro key _
    cases key <;> simp
  exact (distinct.subperm within).length_le

theorem readPairs_iff {fuel : Nat} {seen : List Key} {o o' : Options} {i : Input} {rest : List Char}
    (distinct : seen.Nodup) (enough : 4 ≤ fuel + seen.length) :
    Leaves (readPairs fuel seen o i) o' rest ↔ ∃ pairs : List (Key × Bool),
      (pairs.map Prod.fst ++ seen).Nodup ∧
      o' = pairs.foldl (fun o pair => set o pair.1 pair.2) o ∧
      ∃ cs, Lists IsPair '\x7d' seen.isEmpty pairs cs ∧ i.rest = cs ++ rest := by
  induction fuel generalizing seen o i with
  | zero =>
    -- There are three keys, so that the fourth member of an object is its end.
    have few := length_le_three_of_nodup distinct
    omega
  | succ fuel ih =>
    constructor
    · rintro ⟨j, read, left⟩
      obtain ⟨k, next, rfl, rfl⟩ | ⟨key, b, n, unseen, pair, read⟩ := readPairs_succ_iff.mp read
      · obtain ⟨eq, ds, closed⟩ := nextKey_false_iff.mp ⟨k, next, rfl⟩
        refine ⟨[], distinct, rfl, (lists_nil_iff rfl).mpr ?_⟩
        rw [eq, closed, ← left, rest_skip_one closed]
      · obtain ⟨k, l, m, next, name, colon, bool⟩ := pair
        obtain ⟨lead, cs, leads, isPair, eq⟩ :=
          readPair_iff.mp ⟨k, l, m, next, name, colon, n, bool, rfl⟩
        obtain ⟨pairs, distinct', rfl, ds, lists, eq'⟩ :=
          (ih (List.nodup_cons.mpr ⟨unseen, distinct⟩) (by rw [List.length_cons]; omega)).mp
            ⟨j, read, left⟩
        refine ⟨(key, b) :: pairs, List.perm_middle.nodup_iff.mp distinct', rfl, ?_⟩
        exact lists_cons_iff.mpr ⟨lead, cs, _, leads, isPair, eq, ds, lists, eq'⟩
    · rintro ⟨pairs, distinct', rfl, listed⟩
      cases pairs with
      | nil =>
        obtain ⟨k, next, closed⟩ := nextKey_false_iff.mpr ⟨(lists_nil_iff rfl).mp listed, rest, rfl⟩
        exact ⟨k.skip 1, readPairs_succ_iff.mpr (.inl ⟨k, next, rfl, rfl⟩), rest_skip_one closed⟩
      | cons pair pairs =>
        obtain ⟨lead, cs, left, leads, isPair, eq, tail⟩ := lists_cons_iff.mp listed
        obtain ⟨k, l, m, next, name, colon, n, bool, rfl⟩ :=
          readPair_iff.mpr ⟨lead, cs, leads, isPair, eq⟩
        have fresh : (pairs.map Prod.fst ++ pair.1 :: seen).Nodup :=
          List.perm_middle.nodup_iff.mpr distinct'
        obtain ⟨j, read, left⟩ := (ih (fresh.sublist (List.sublist_append_right ..))
          (by rw [List.length_cons]; omega)).mpr ⟨pairs, fresh, rfl, tail⟩
        have unseen : pair.1 ∉ seen :=
          (List.nodup_cons.mp (fresh.sublist (List.sublist_append_right ..))).1
        exact ⟨j, readPairs_succ_iff.mpr
          (.inr ⟨_, _, n, unseen, ⟨k, l, m, next, name, colon, bool⟩, read⟩), left⟩

/-! Whole texts -/

def Key.value (o : Options) : Key → Bool
  | strict => o.strict
  | loose => o.loose
  | addExports => o.addExports

theorem Key.value_set {o : Options} {key other : Key} {b : Bool} :
    value (set o key b) other = if key = other then b else value o other := by
  cases key <;> cases other <;> rfl

theorem Key.value_foldl_set {pairs : List (Key × Bool)} {o : Options} {key : Key}
    (distinct : (pairs.map Prod.fst).Nodup) :
    value (pairs.foldl (fun o pair => set o pair.1 pair.2) o) key = true ↔
      (key, true) ∈ pairs ∨ key ∉ pairs.map Prod.fst ∧ value o key = true := by
  induction pairs generalizing o with
  | nil => simp
  | cons pair pairs ih =>
    obtain ⟨other, b⟩ := pair
    rw [List.map_cons, List.nodup_cons] at distinct
    rw [List.foldl_cons, ih distinct.2, value_set]
    by_cases same : other = key
    · subst same
      have unset (b : Bool) : (other, b) ∉ pairs :=
        fun mem => distinct.1 (List.mem_map.mpr ⟨_, mem, rfl⟩)
      simp only [distinct.1, unset, if_true, List.map_cons, List.mem_cons, not_true, false_and,
        false_or, or_false, not_false_eq_true, true_and, Prod.mk.injEq, eq_comm]
    · simp [same, Ne.symm same]

theorem foldl_set_default {pairs : List (Key × Bool)} (distinct : (pairs.map Prod.fst).Nodup) :
    pairs.foldl (fun o pair => set o pair.1 pair.2) Options.default =
      ⟨(.strict, true) ∈ pairs, (.loose, true) ∈ pairs, (.addExports, true) ∈ pairs⟩ := by
  have on (key : Key) : Key.value (pairs.foldl (fun o pair => set o pair.1 pair.2) Options.default)
    key =
      decide ((key, true) ∈ pairs) := by
    have unset : Key.value Options.default key = false := by cases key <;> rfl
    rw [Bool.eq_iff_iff, Key.value_foldl_set distinct, unset]
    simp
  rw [← on .strict, ← on .loose, ← on .addExports]
  rfl

theorem ofList_eq (bs : List Bool) :
    ofList bs = ⟨bs[0]? = some true, bs[1]? = some true, bs[2]? = some true⟩ := by
  have on (o : Option Bool) : o.getD false = decide (o = some true) := by
    rcases o with _ | _ | _ <;> rfl
  simp only [ofList, List.getD_eq_getElem?_getD, on]

theorem says_iff {text : String} {o : Options} : Says text o ↔
    ∃ cs rest, IsValue o cs ∧ IsBlank rest ∧ (Input.mk text.toList 0).skipSpace.rest =
    cs ++ rest := by
  constructor
  · rintro ⟨w, _, w', blank, ⟨listed, distinct⟩ | ⟨listed, few⟩, blank', eq⟩
    · exact ⟨_, w', .object listed distinct, blank', skipSpace_rest_eq_cons_iff.mpr
        ⟨rfl, w, blank, eq⟩⟩
    · exact ⟨_, w', .array listed few, blank', skipSpace_rest_eq_cons_iff.mpr ⟨rfl, w, blank, eq⟩⟩
  · rintro ⟨_, w', ⟨listed, distinct⟩ | ⟨listed, few⟩, blank', eq⟩
    · obtain ⟨-, w, blank, eq⟩ := skipSpace_rest_eq_cons_iff.mp eq
      exact ⟨w, _, w', blank, .object listed distinct, blank', eq⟩
    · obtain ⟨-, w, blank, eq⟩ := skipSpace_rest_eq_cons_iff.mp eq
      exact ⟨w, _, w', blank, .array listed few, blank', eq⟩

theorem readEnd_iff {x : Except Problem (Options × Input)} {o : Options} :
    (x >>= fun value => if value.2.skipSpace.rest.isEmpty = true then .ok value.1
        else value.2.skipSpace.failNext .trailingText) = .ok o ↔
      ∃ rest, IsBlank rest ∧ Leaves x o rest := by
  rw [bind_eq_ok_iff]
  constructor
  · rintro ⟨⟨o, j⟩, value, here⟩
    split at here
    · next ended =>
      cases here
      exact ⟨j.rest, skipSpace_rest_eq_nil_iff.mp (List.isEmpty_iff.mp ended), j, value, rfl⟩
    · cases here
  · rintro ⟨_, blank, j, value, rfl⟩
    exact ⟨_, value, if_pos (List.isEmpty_iff.mpr (skipSpace_rest_eq_nil_iff.mpr blank))⟩

theorem read_iff {text : String} {o : Options} : read text = .ok o ↔ Says text o := by
  rw [says_iff]
  unfold read
  dsimp only
  generalize (Input.mk text.toList 0).skipSpace = i
  split
  · next next =>
    refine iff_of_false ?_ ?_
    · rw [readEnd_iff]
      rintro ⟨rest, -, j, failed, -⟩
      cases failed
    · rintro ⟨_, rest, ⟨-, -⟩ | ⟨-, -⟩, -, eq⟩ <;> cases next.symm.trans eq
  · next ds next =>
    constructor
    · intro read
      obtain ⟨⟨bs, j⟩, elements, read⟩ := bind_eq_ok_iff.mp read
      obtain ⟨k, ended, read⟩ := bind_eq_ok_iff.mp read
      obtain ⟨rest, blank, _, here, left⟩ := readEnd_iff.mp read
      cases here
      obtain ⟨few, cs, lists, eq⟩ := readElements_iff.mp ⟨j, elements, k, ended, left⟩
      rw [rest_skip_one next] at eq
      exact ⟨'[' :: cs, rest, ofList_eq bs ▸ .array lists few, blank, by rw [next, eq]; rfl⟩
    · rintro ⟨_, rest, ⟨-, -⟩ | ⟨listed, few⟩, blank, eq⟩
      · cases next.symm.trans eq
      · have eq := (rest_skip_one next).trans (List.cons.inj (next.symm.trans eq)).2
        obtain ⟨j, elements, k, ended, left⟩ := readElements_iff.mpr ⟨few, _, listed, eq⟩
        rw [← ofList_eq]
        exact bind_eq_ok_iff.mpr ⟨_, elements, bind_eq_ok_iff.mpr
          ⟨k, ended, readEnd_iff.mpr ⟨rest, blank, k, rfl, left⟩⟩⟩
  · next ds next =>
    rw [readEnd_iff]
    simp only [readPairs_iff List.nodup_nil (Nat.le_refl 4), List.append_nil, rest_skip_one next]
    constructor
    · rintro ⟨rest, blank, pairs, distinct, rfl, cs, listed, eq⟩
      exact ⟨'\x7b' :: cs, rest, foldl_set_default distinct ▸ .object listed distinct, blank, by
        rw [next, eq]; rfl⟩
    · rintro ⟨_, rest, ⟨listed, distinct⟩ | ⟨-, -⟩, blank, eq⟩
      · exact ⟨rest, blank, _, distinct, (foldl_set_default distinct).symm, _, listed,
          (List.cons.inj (next.symm.trans eq)).2⟩
      · cases next.symm.trans eq
  · next noBracket noBrace =>
    refine iff_of_false ?_ ?_
    · rw [readEnd_iff]
      rintro ⟨rest, -, j, read, -⟩
      exact wrongType_ne_ok read
    · rintro ⟨_, rest, ⟨-, -⟩ | ⟨-, -⟩, -, eq⟩
      · exact noBrace _ eq
      · exact noBracket _ eq

end OptionsText

/-- Options are read from the texts of the grammar, and are what these say. Every other text is
refused. -/
theorem Options.ofText_eq_ok_iff_says (text : String) :
    (∀ o, Options.ofText text = .ok o ↔ OptionsText.Says text o) ∧
      ((∃ problem, Options.ofText text = .error (.invalidOptions problem)) ↔
      ¬ ∃ o, OptionsText.Says text o) := by
  simp only [← OptionsText.read_iff, Options.ofText]
  cases OptionsText.read text <;> simp

end ModuleLowering
