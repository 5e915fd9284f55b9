import Mathlib.Data.List.Nodup
import Mathlib.Data.List.Perm.Subperm
import ModuleLowering.Lower.FreshName
import ModuleLowering.Proofs.Text.Identifier

/-!
Made-up names are new: different numbers give different candidates, so that more candidates than
taken names contain a free one. Whatever text they are built around, they are spelled as names are.
-/

set_option autoImplicit false

namespace ModuleLowering

theorem isNamePart_of_isAsciiNameChar {c : Char} (named : isAsciiNameChar c = true) :
    isNamePart c = true := by
  simp only [isAsciiNameChar, Bool.or_eq_true] at named
  rcases named with ((letter | digit) | dollar) | underscore
  · simp [isNamePart, isNameStart, letter]
  · simp [isNamePart, digit]
  · simp [isNamePart, isNameStart, dollar]
  · simp [isNamePart, isNameStart, underscore]

namespace TakenNames

theorem isAsciiNameChar_of_mem_stem (hint : String) :
    ∀ c ∈ stem hint, isAsciiNameChar c = true := by
  intro c among
  unfold stem at among
  dsimp only at among
  have inside := (List.dropWhile_sublist _).subset (List.mem_reverse.mp among)
  exact isAsciiNameChar_of_mem_toIdentifier hint c
    ((List.dropWhile_sublist _).subset (List.mem_reverse.mp inside))

theorem isAsciiNameChar_of_mem_candidate (hint : String) (i : Nat) :
    ∀ c ∈ (candidate hint i).toList, isAsciiNameChar c = true := by
  intro c among
  rw [candidate, String.toList_append, String.toList_ofList, List.mem_append, List.mem_cons]
    at among
  rcases among with (rfl | inside) | number
  · decide
  · exact isAsciiNameChar_of_mem_stem hint c inside
  · split at number
    · cases number
    · have digits : c ∈ Nat.toDigits 10 (i + 1) := by rwa [← Nat.toList_repr]
      have digit : isAsciiDigit c = true := by
        have isDigit := Nat.isDigit_of_mem_toDigits (by decide) (by decide) digits
        simpa [Char.isDigit, isAsciiDigit, Char.le_def] using isDigit
      simp [isAsciiNameChar, digit]

theorem candidate_injective (hint : String) {i j : Nat} (h : candidate hint i = candidate hint j) :
    i = j := by
  simp only [candidate, String.append_right_inj] at h
  have digits : ∀ n : Nat, (toString n).toList = Nat.toDigits 10 n := fun n => Nat.toList_repr
  by_cases hi : i = 0 <;> by_cases hj : j = 0
  · omega
  · have empty := congrArg String.toList h
    simp only [hi, hj, if_true, if_false, digits] at empty
    exact absurd empty.symm Nat.toDigits_ne_nil
  · have empty := congrArg String.toList h
    simp only [hi, hj, if_true, if_false, digits] at empty
    exact absurd empty Nat.toDigits_ne_nil
  · have same := congrArg String.toList h
    simp only [hi, hj, if_false, digits] at same
    have value := congrArg (fun ds => Nat.ofDigitChars 10 ds 0) same
    simp only [Nat.ofDigitChars_ten_toDigits] at value
    omega

theorem candidate_head (hint : String) (i : Nat) : (candidate hint i).toList.head? = some '_' := by
  simp [candidate]

theorem isIdentifierName_candidate (hint : String) (i : Nat) :
    isIdentifierName (candidate hint i) = true := by
  have spelled := isAsciiNameChar_of_mem_candidate hint i
  have head := candidate_head hint i
  unfold isIdentifierName
  cases chars : (candidate hint i).toList with
  | nil => simp [chars] at head
  | cons c cs =>
    obtain rfl : c = '_' := by simpa [chars] using head
    rw [chars] at spelled
    have rest : cs.all isNamePart = true := List.all_eq_true.mpr fun d among =>
      isNamePart_of_isAsciiNameChar (spelled d (List.mem_cons_of_mem _ among))
    simp only [rest, Bool.and_true]
    decide

theorem exists_free (t : TakenNames) (hint : String) :
    ∃ i < t.names.length + 1, candidate hint i ∉ t.names := by
  by_contra none
  have all : (List.range (t.names.length + 1)).map (candidate hint) ⊆ t.names := by
    intro name among
    obtain ⟨i, small, rfl⟩ := List.mem_map.mp among
    by_contra free
    exact none ⟨i, List.mem_range.mp small, free⟩
  have distinct : ((List.range (t.names.length + 1)).map (candidate hint)).Nodup :=
    List.Nodup.map (fun _ _ => candidate_injective hint) List.nodup_range
  have bound := (List.subperm_of_subset distinct all).length_le
  simp only [List.length_map, List.length_range] at bound
  omega

/-- The name found is the first candidate that is free. -/
theorem firstFree_least (t : TakenNames) (hint : String) :
    ∃ i ≤ t.names.length, t.firstFree hint = candidate hint i ∧
    candidate hint i ∉ t.names ∧ ∀ j < i, candidate hint j ∈ t.names := by
  obtain ⟨i, small, free⟩ := t.exists_free hint
  rw [firstFree, List.find?_map]
  cases found : (List.range (t.names.length + 1)).find?
    ((fun name => !(t.names.contains name)) ∘ candidate hint) with
  | none =>
    have taken := List.find?_eq_none.mp found i (List.mem_range.mpr small)
    simp [free] at taken
  | some j =>
    obtain ⟨untaken, inside, least⟩ := List.find?_range_eq_some.mp found
    exact ⟨j, Nat.le_of_lt_succ (List.mem_range.mp inside), rfl, by simpa using untaken, by
      simpa using least⟩

theorem firstFree_spec (t : TakenNames) (hint : String) :
    (∃ i, t.firstFree hint = candidate hint i) ∧ t.firstFree hint ∉ t.names := by
  obtain ⟨i, -, same, free, -⟩ := t.firstFree_least hint
  exact ⟨⟨i, same⟩, same ▸ free⟩

theorem generate_not_mem (t : TakenNames) (hint : String) : (t.generate hint).1 ∉ t.names :=
  (t.firstFree_spec hint).2

theorem generate_head (t : TakenNames) (hint : String) :
    (t.generate hint).1.toList.head? = some '_' := by
  obtain ⟨i, same⟩ := (t.firstFree_spec hint).1
  rw [show (t.generate hint).1 = t.firstFree hint from rfl, same]
  exact candidate_head hint i

structure Generates (t : TakenNames) (gs : List String) (t' : TakenNames) : Prop where
  names : t'.names = gs.reverse ++ t.names
  nodup : gs.Nodup
  fresh : ∀ g ∈ gs, g ∉ t.names
  head : ∀ g ∈ gs, g.toList.head? = some '_'
  candidates : ∀ g ∈ gs, ∃ hint i, g = candidate hint i

namespace Generates

theorem nothing (t : TakenNames) : t.Generates [] t := ⟨rfl, .nil, by simp, by simp, by simp⟩

theorem one (t : TakenNames) (hint : String) : t.Generates [(t.generate hint).1]
    (t.generate hint).2 := by
  refine ⟨rfl, List.nodup_singleton _, ?_, ?_, ?_⟩
  · simpa using t.generate_not_mem hint
  · simpa using t.generate_head hint
  · intro g among
    obtain ⟨i, same⟩ := (t.firstFree_spec hint).1
    rw [List.mem_singleton.mp among]
    exact ⟨hint, i, same⟩

theorem trans {t t₁ t₂ : TakenNames} {gs hs : List String} (first : t.Generates gs t₁)
    (second : t₁.Generates hs t₂) :
    t.Generates (gs ++ hs) t₂ where
  names := by rw [second.names, first.names, List.reverse_append, List.append_assoc]
  nodup := by
    refine List.nodup_append'.mpr ⟨first.nodup, second.nodup, fun g early late =>
      second.fresh g late ?_⟩
    rw [first.names]
    exact List.mem_append_left _ (List.mem_reverse.mpr early)
  fresh g among taken := by
    rcases List.mem_append.mp among with early | late
    · exact first.fresh g early taken
    · exact second.fresh g late (first.names ▸ List.mem_append_right _ taken)
  head g among := (List.mem_append.mp among).elim (first.head g) (second.head g)
  candidates g among := (List.mem_append.mp among).elim (first.candidates g) (second.candidates g)

end Generates

end TakenNames

end ModuleLowering
