import Mathlib.Data.List.Induction
import Mathlib.Data.List.Nodup

/-!
Names in the order of their first occurrence, and what becomes of that order when some occurrences
are moved to the front.
-/

set_option autoImplicit false

namespace ModuleLowering

namespace FirstOccurrence

variable {l l' m : List String} {x y : String}

theorem mem_removeAll : x ∈ l.removeAll m ↔ x ∈ l ∧ x ∉ m := by
  simp [List.removeAll]

theorem eraseDups_concat {α : Type} [BEq α] [LawfulBEq α] (l : List α) (x : α) :
    (l ++ [x]).eraseDups = if x ∈ l then l.eraseDups else l.eraseDups ++ [x] := by
  rw [List.eraseDups_append]
  split
  · next old => simp [List.removeAll, old]
  · next new => simp [List.removeAll, new, List.eraseDups_cons]

theorem nodup_eraseDups (l : List String) : l.eraseDups.Nodup := by
  induction l using List.reverseRecOn with
  | nil => exact .nil
  | append_singleton l x ih =>
    rw [eraseDups_concat]
    split
    · exact ih
    · next new =>
      have absent : x ∉ l.eraseDups := by rwa [List.mem_eraseDups]
      exact List.nodup_append_comm.mp (List.nodup_cons.mpr ⟨absent, ih⟩)

theorem eraseDups_append_of_subset (known : m ⊆ l) (l' : List String) :
    (l ++ (m ++ l')).eraseDups = (l ++ l').eraseDups := by
  rw [List.eraseDups_append, List.eraseDups_append]
  have gone : m.removeAll l = [] := List.eq_nil_iff_forall_not_mem.mpr fun x among =>
    (mem_removeAll.mp among).2 (known (mem_removeAll.mp among).1)
  have split : (m ++ l').removeAll l = m.removeAll l ++ l'.removeAll l := List.filter_append ..
  rw [split, gone, List.nil_append]

theorem pair_sublist_eraseDups (absent : y ∉ l) (other : y ≠ x) (later : y ∈ l') :
    [x, y].Sublist (l ++ x :: l').eraseDups := by
  have split : l ++ x :: l' = (l ++ [x]) ++ l' := by simp
  rw [split, List.eraseDups_append]
  have first : x ∈ (l ++ [x]).eraseDups := by simp [List.mem_eraseDups]
  have second : y ∈ (l'.removeAll (l ++ [x])).eraseDups := by
    rw [List.mem_eraseDups, mem_removeAll]
    exact ⟨later, by simp [absent, other]⟩
  exact (List.singleton_sublist.mpr first).append (List.singleton_sublist.mpr second)

theorem not_both_sublist (distinct : l.Nodup) (other : y ≠ x) (first : [x, y].Sublist l) :
    ¬ [y, x].Sublist l := by
  intro second
  induction l with
  | nil => cases second
  | cons z l ih =>
    obtain ⟨new, distinct⟩ := List.nodup_cons.mp distinct
    rcases List.sublist_cons_iff.mp first with inside | ⟨rest, eq, inside⟩
    · rcases List.sublist_cons_iff.mp second with inside' | ⟨rest, eq, -⟩
      · exact ih distinct inside inside'
      · obtain ⟨rfl, -⟩ := List.cons.inj eq
        exact new (inside.subset (by simp))
    · obtain ⟨rfl, rfl⟩ := List.cons.inj eq
      rcases List.sublist_cons_iff.mp second with inside' | ⟨rest, eq', -⟩
      · exact new (inside'.subset (by simp))
      · exact other (List.cons.inj eq').1

theorem eraseDups_of_nodup (distinct : l.Nodup) : l.eraseDups = l := by
  induction l using List.reverseRecOn with
  | nil => rfl
  | append_singleton l x ih =>
    have turned : (x :: l).Nodup := List.nodup_append_comm.mp distinct
    rw [eraseDups_concat, if_neg (List.nodup_cons.mp turned).1, ih (List.nodup_cons.mp turned).2]

theorem eraseDups_append_flatMap {f : String → List String} (part : ∀ x, f x ⊆ [x])
    (whole : ∀ x, x ∉ l → f x = [x]) (m : List String) :
    (l.eraseDups ++ m.eraseDups.flatMap f).eraseDups = (l ++ m).eraseDups := by
  induction m using List.reverseRecOn with
  | nil => simp [eraseDups_of_nodup (nodup_eraseDups l)]
  | append_singleton m x ih =>
    rw [← List.append_assoc, eraseDups_concat m, eraseDups_concat (l ++ m)]
    by_cases known : x ∈ m
    · rw [if_pos known, if_pos (List.mem_append_right _ known), ih]
    rw [if_neg known, List.flatMap_append, List.flatMap_singleton, ← List.append_assoc]
    by_cases old : x ∈ l
    · have dropped : f x ⊆ l.eraseDups ++ m.eraseDups.flatMap f := fun y here => by
        rw [List.mem_singleton.mp (part x here)]
        exact List.mem_append_left _ (List.mem_eraseDups.mpr old)
      have less := eraseDups_append_of_subset dropped []
      rw [List.append_nil, List.append_nil] at less
      rw [if_pos (List.mem_append_left _ old), less, ih]
    · have new : x ∉ l.eraseDups ++ m.eraseDups.flatMap f := by
        simp only [List.mem_append, List.mem_eraseDups, List.mem_flatMap, not_or,
          not_exists, not_and]
        refine ⟨old, fun y among here => known ?_⟩
        rwa [List.mem_singleton.mp (part y here)]
      rw [whole x old, eraseDups_concat, if_neg new, ih, if_neg (by simp [old, known])]

theorem flatMap_filter_perm {α : Type} (key : α → String) {keys : List String}
    (distinct : keys.Nodup) (as : List α) (known : ∀ a ∈ as, key a ∈ keys) :
    (keys.flatMap fun k => as.filter fun a => key a = k).Perm as := by
  induction keys generalizing as with
  | nil =>
    rw [List.eq_nil_iff_forall_not_mem.mpr fun a among => List.not_mem_nil (known a among)]
    exact .nil
  | cons k keys ih =>
    obtain ⟨new, distinct⟩ := List.nodup_cons.mp distinct
    -- What has the first key is set aside, and the other keys share the rest.
    have others : ∀ k' ∈ keys, (as.filter fun a => !decide (key a = k)).filter
      (fun a => key a = k') =
        as.filter fun a => key a = k' := by
      intro k' among
      rw [List.filter_filter]
      apply List.filter_congr
      intro a _
      have apart : k' ≠ k := fun same => new (same ▸ among)
      by_cases here : key a = k'
      · simp [here, apart]
      · simp [here]
    have rest := ih distinct (as.filter fun a => !decide (key a = k)) fun a among => by
      obtain ⟨listed, other⟩ := List.mem_filter.mp among
      exact (List.mem_cons.mp (known a listed)).resolve_left (by simpa using other)
    rw [List.flatMap_congr fun k' among => others k' among] at rest
    rw [List.flatMap_cons]
    exact (rest.append_left _).trans (List.filter_append_perm _ as)

end FirstOccurrence

structure Dependency where
  path : String
  /-- Exports of the module are passed on; else it is imported. -/
  isPassed : Bool
  deriving DecidableEq

namespace Dependency

def passed (ds : List Dependency) : List String := (ds.filter isPassed).map path

def imported (ds : List Dependency) : List String := (ds.filter fun d => !d.isPassed).map path

/-- Exports of one path are passed on behind an import of another that exports have not been passed
on from, and the first path was not named before that import. -/
def Overtakes (ds : List Dependency) : Prop :=
  ∃ (a b c : List Dependency) (p q : String), ds = a ++ ⟨q, false⟩ :: (b ++ ⟨p, true⟩ :: c) ∧
    p ≠ q ∧ p ∉ a.map path ∧
    q ∉ passed (a ++ b)

variable {ds : List Dependency}

theorem mem_paths {x : String} : x ∈ ds.map path ↔ x ∈ passed ds ∨ x ∈ imported ds := by
  simp only [passed, imported, List.mem_map, List.mem_filter]
  constructor
  · rintro ⟨d, among, rfl⟩
    cases kind : d.isPassed with
    | true => exact .inl ⟨d, ⟨among, kind⟩, rfl⟩
    | false => exact .inr ⟨d, ⟨among, by rw [kind]; rfl⟩, rfl⟩
  · rintro (⟨d, ⟨among, -⟩, rfl⟩ | ⟨d, ⟨among, -⟩, rfl⟩)
    all_goals exact ⟨d, among, rfl⟩

@[simp] theorem passed_append (ds ds' : List Dependency) :
    passed (ds ++ ds') = passed ds ++ passed ds' := by
  simp [passed]

@[simp] theorem imported_append (ds ds' : List Dependency) :
    imported (ds ++ ds') = imported ds ++ imported ds' := by
  simp [imported]

@[simp] theorem imported_cons_false (p : String) (ds : List Dependency) :
    imported (⟨p, false⟩ :: ds) = p :: imported ds := rfl

theorem Overtakes.concat (h : Overtakes ds) (d : Dependency) : Overtakes (ds ++ [d]) := by
  obtain ⟨a, b, c, p, q, rfl, facts⟩ := h
  exact ⟨a, b, c ++ [d], p, q, by simp, facts⟩

theorem Overtakes.ne (h : Overtakes ds) : (passed ds ++ imported ds).eraseDups ≠
    (ds.map path).eraseDups := by
  obtain ⟨a, b, c, p, q, rfl, other, new, never⟩ := h
  intro same
  have inSource : [q, p].Sublist ((a ++ ⟨q, false⟩ :: (b ++ ⟨p, true⟩ :: c)).map
    path).eraseDups := by
    rw [List.map_append, List.map_cons]
    exact FirstOccurrence.pair_sublist_eraseDups new other (by simp)
  have ahead : [p, q].Sublist (passed (a ++ b) ++
      p :: (passed c ++ imported (a ++ ⟨q, false⟩ :: (b ++ ⟨p, true⟩ :: c)))).eraseDups :=
    FirstOccurrence.pair_sublist_eraseDups never other.symm (by simp)
  refine FirstOccurrence.not_both_sublist (FirstOccurrence.nodup_eraseDups _) other inSource ?_
  rw [← same]
  simpa [passed] using ahead

theorem exists_first_import {known : List String} (unknown : ¬ imported ds ⊆ known) :
    ∃ a q b, ds = a ++ ⟨q, false⟩ :: b ∧ q ∉ known ∧ imported a ⊆ known := by
  induction ds with
  | nil => exact absurd (List.nil_subset _) unknown
  | cons d ds ih =>
    obtain ⟨p, isPassed⟩ := d
    cases isPassed with
    | true =>
      obtain ⟨a, q, b, rfl, new, before⟩ := ih unknown
      exact ⟨⟨p, true⟩ :: a, q, b, rfl, new, before⟩
    | false =>
      by_cases old : p ∈ known
      · obtain ⟨a, q, b, rfl, new, before⟩ :=
          ih fun covered => unknown (List.cons_subset.mpr ⟨old, covered⟩)
        exact ⟨⟨p, false⟩ :: a, q, b, rfl, new, List.cons_subset.mpr ⟨old, before⟩⟩
      · exact ⟨[], p, ds, rfl, old, List.nil_subset _⟩

theorem eraseDups_of_not_overtakes (h : ¬ Overtakes ds) :
    (passed ds ++ imported ds).eraseDups = (ds.map path).eraseDups := by
  induction ds using List.reverseRecOn with
  | nil => rfl
  | append_singleton ds d ih =>
    have before := ih fun overtakes => h (overtakes.concat d)
    obtain ⟨p, isPassed⟩ := d
    rw [List.map_append, List.map_singleton, FirstOccurrence.eraseDups_concat]
    cases isPassed with
    | false =>
      have known : p ∈ passed ds ++ imported ds ↔ p ∈ ds.map path := by
        rw [List.mem_append, mem_paths]
      have last : passed (ds ++ [⟨p, false⟩]) ++ imported (ds ++ [⟨p, false⟩]) =
        (passed ds ++ imported ds) ++ [p] := by simp [passed, imported]
      simp only [last, FirstOccurrence.eraseDups_concat, known, before]
    | true =>
      have moved : passed (ds ++ [⟨p, true⟩]) ++ imported (ds ++ [⟨p, true⟩]) = passed ds ++
        ([p] ++ imported ds) := by simp [passed, imported]
      rw [moved]
      by_cases old : p ∈ passed ds
      · rw [if_pos (mem_paths.mpr (.inl old)), FirstOccurrence.eraseDups_append_of_subset
          (by simpa using old), before]
      by_cases covered : imported ds ⊆ passed ds
      · -- All that was imported is in front already.
        have new : p ∉ ds.map path :=
          fun among => (mem_paths.mp among).elim old fun here => old (covered here)
        have front := FirstOccurrence.eraseDups_append_of_subset covered []
        have behind := FirstOccurrence.eraseDups_append_of_subset
          (List.Subset.trans covered (List.subset_append_left (passed ds) [p])) []
        simp only [List.append_nil] at front behind
        rw [← List.append_assoc, behind, FirstOccurrence.eraseDups_concat, if_neg old, if_neg new,
          ← before, front]
      · -- What was imported first of the rest is the path itself, or it would be overtaken.
        obtain ⟨a, q, b, rfl, new, early⟩ := exists_first_import covered
        obtain rfl : p = q := by
          by_contra other
          refine h ⟨a, b, [], p, q, by simp, other, fun among => old ?_,
            by simpa [passed] using new⟩
          rcases mem_paths.mp among with here | here
          · simp [here]
          · exact early here
        generalize passed (a ++ ⟨p, false⟩ :: b) = front at *
        rw [if_pos (by simp), ← before, imported_append, imported_cons_false]
        have again : imported a ++ [p] ⊆ front ++ [p] := List.append_subset.mpr
          ⟨List.Subset.trans early (List.subset_append_left front [p]),
          List.subset_append_right front [p]⟩
        calc (front ++ ([p] ++ (imported a ++ p :: imported b))).eraseDups
            = ((front ++ [p]) ++ ((imported a ++ [p]) ++ imported b)).eraseDups := by simp
          _ = ((front ++ [p]) ++ imported b).eraseDups :=
            FirstOccurrence.eraseDups_append_of_subset again _
          _ = (front ++ p :: imported b).eraseDups := by simp
          _ = (front ++ (imported a ++ p :: imported b)).eraseDups :=
            (FirstOccurrence.eraseDups_append_of_subset early _).symm

theorem eraseDups_eq_iff : (passed ds ++ imported ds).eraseDups = (ds.map path).eraseDups ↔
    ¬ Overtakes ds :=
  ⟨fun same overtakes => overtakes.ne same, eraseDups_of_not_overtakes⟩

end Dependency

end ModuleLowering
