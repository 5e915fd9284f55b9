import Mathlib.Data.List.DropRight
import ModuleLowering.Proofs.Lower.FreshName
import ModuleLowering.Transform

/-!
How names are made up on request. A request goes through the candidates of its hint until one is
free, which takes no more attempts than there are taken names, and one; the name is taken from then
on, so that no two requests come to the same.
-/

set_option autoImplicit false

namespace ModuleLowering

namespace TakenNames

structure IsStem (text stem : List Char) : Prop where
  split : ∃ underscores digits, text = underscores ++ stem ++ digits ∧
    (∀ c ∈ underscores, c = '_') ∧
    ∀ c ∈ digits, isAsciiDigit c = true
  head : stem.head? ≠ some '_'
  last : ∀ c, stem.getLast? = some c → isAsciiDigit c = false

theorem isStem_stem (hint : String) : IsStem (toIdentifier hint).toList (stem hint) := by
  -- Underscores go first, so that the digits are cut from what they leave.
  let name := (toIdentifier hint).toList.dropWhile (· == '_')
  have cut : stem hint ++ name.rtakeWhile isAsciiDigit = name := by
    show name.rdropWhile isAsciiDigit ++ _ = name
    rw [List.rdropWhile, List.rtakeWhile, ← List.reverse_append, List.takeWhile_append_dropWhile,
      List.reverse_reverse]
  constructor
  case split =>
    refine ⟨(toIdentifier hint).toList.takeWhile (· == '_'), name.rtakeWhile isAsciiDigit, ?_,
      fun c among => ?_, fun c =>
      List.mem_rtakeWhile_imp⟩
    · rw [List.append_assoc, cut, List.takeWhile_append_dropWhile]
    · simpa using List.mem_takeWhile_imp among
  case head =>
    intro first
    have other := List.head?_dropWhile_not (· == '_') (toIdentifier hint).toList
    have kept : name.head? = some '_' := by rw [← cut, List.head?_append, first]; rfl
    rw [kept] at other
    cases other
  case last =>
    intro c last
    have some : name.rdropWhile isAsciiDigit ≠ [] := by
      intro none
      rw [show stem hint = [] from none] at last
      cases last
    obtain rfl := Option.some.inj ((List.getLast?_eq_some_getLast some).symm.trans last)
    simpa using List.rdropWhile_last_not isAsciiDigit name some

theorem exists_candidate_eq_cons (hint : String) (i : Nat) :
    ∃ rest, (candidate hint i).toList = '_' :: rest ∧
    rest.head? ≠ some '_' := by
  refine ⟨stem hint ++ (if i = 0 then "" else toString (i + 1)).toList, ?_, fun first => ?_⟩
  · rw [candidate, String.toList_append, String.toList_ofList, List.cons_append]
  · rw [List.head?_append, Option.or_eq_some_iff] at first
    rcases first with inside | ⟨-, number⟩
    · exact (isStem_stem hint).head inside
    · split at number
      · cases number
      · -- The number that tells candidates apart is written in digits.
        have digits : '_' ∈ Nat.toDigits 10 (i + 1) := by
          rw [← Nat.toList_repr]
          exact List.mem_of_mem_head? number
        exact absurd (Nat.isDigit_of_mem_toDigits (by decide) (by decide) digits) (by decide)

structure Supplies (hint name : String) (t t' : TakenNames) : Prop where
  first : ∃ i ≤ t.names.length, name = candidate hint i ∧ ∀ j < i, candidate hint j ∈ t.names
  free : name ∉ t.names
  taken : ∀ x, x ∈ t'.names ↔ x = name ∨ x ∈ t.names
  spelled : ∃ rest, name.toList = '_' :: rest ∧ rest.head? ≠ some '_' ∧
    ∀ c ∈ rest, isAsciiNameChar c = true

theorem supplies_generate (t : TakenNames) (hint : String) :
    Supplies hint (t.generate hint).1 t (t.generate hint).2 := by
  obtain ⟨i, few, same, free, least⟩ := t.firstFree_least hint
  have name : (t.generate hint).1 = candidate hint i := same
  obtain ⟨rest, chars, head⟩ := exists_candidate_eq_cons hint i
  refine ⟨⟨i, few, name, least⟩, name ▸ free, fun x => List.mem_cons, rest, name ▸ chars, head,
    fun c among => ?_⟩
  exact isAsciiNameChar_of_mem_candidate hint i c (chars ▸ List.mem_cons_of_mem _ among)

theorem exists_generates_generateAll (t : TakenNames) (hints : List String) :
    ∃ t', t.Generates (t.generateAll hints) t' ∧ (t.generateAll hints).length = hints.length := by
  induction hints generalizing t with
  | nil => exact ⟨t, .nothing t, rfl⟩
  | cons hint hints ih =>
    obtain ⟨t', generates, count⟩ := ih (t.generate hint).2
    exact ⟨t', (Generates.one t hint).trans generates, congrArg (· + 1) count⟩

/-- Whatever the hint and however many names are taken, a request comes to the first free candidate
and takes it, and requests made one after the other come to different names. -/
theorem requests_take_first_free (t : TakenNames) :
    (∀ hint, IsStem (toIdentifier hint).toList (stem hint) ∧
      Supplies hint (t.generate hint).1 t (t.generate hint).2) ∧
    ∀ hints, (t.generateAll hints).length = hints.length ∧ (t.generateAll hints).Nodup ∧
      ∀ name ∈ t.generateAll hints, name ∉ t.names := by
  refine ⟨fun hint => ⟨isStem_stem hint, t.supplies_generate hint⟩, fun hints => ?_⟩
  obtain ⟨t', generates, count⟩ := t.exists_generates_generateAll hints
  exact ⟨count, generates.nodup, generates.fresh⟩

end TakenNames

end ModuleLowering
