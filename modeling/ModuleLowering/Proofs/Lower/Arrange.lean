import Mathlib.Data.List.Nodup
import ModuleLowering.Lower.Arrange

/-!
The order that statements are arranged in: priorities fall, and statements of one priority stay in
order. Of two statements, the one that came in first stays first unless the other has the greater
priority.
-/

set_option autoImplicit false

namespace ModuleLowering

variable {α : Type}

theorem arrange_perm (items : List (Priority × α)) : (arrange items).Perm items :=
  List.mergeSort_perm _ _

theorem arrange_of_falling {items : List (Priority × α)}
    (falling : items.Pairwise fun a b => b.1 ≤ a.1) :
    arrange items = items :=
  List.mergeSort_of_pairwise (falling.imp fun h => by simpa using h)

section
variable (items : List (Priority × α))

theorem falls_trans (a b c : Priority × α) (first : decide (b.1 ≤ a.1) = true)
    (second : decide (c.1 ≤ b.1) = true) :
    decide (c.1 ≤ a.1) = true := by
  simp only [decide_eq_true_eq] at *
  exact Nat.le_trans second first

theorem falls_total (a b : Priority × α) : (decide (b.1 ≤ a.1) || decide (a.1 ≤ b.1)) = true := by
  simpa using Nat.le_total b.1 a.1

theorem arrange_falling : (arrange items).Pairwise fun a b => b.1 ≤ a.1 :=
  (List.pairwise_mergeSort falls_trans falls_total items).imp of_decide_eq_true

theorem filter_arrange (p : Priority) : (arrange items).filter (·.1 = p) = items.filter
    (·.1 = p) := by
  have equal : (items.filter (·.1 = p)).Pairwise fun a b => decide (b.1 ≤ a.1) = true := by
    refine List.pairwise_of_forall_mem_list fun a ha b hb => ?_
    simp only [List.mem_filter, decide_eq_true_eq] at ha hb
    simp [ha.2, hb.2]
  have kept : (items.filter (·.1 = p)).Sublist (arrange items) :=
    List.sublist_mergeSort falls_trans falls_total equal List.filter_sublist
  have again := kept.filter (·.1 = p)
  rw [List.filter_filter] at again
  simp only [Bool.and_self] at again
  exact (again.eq_of_length ((arrange_perm items).filter _).length_eq.symm).symm

end

/-- Lists of falling priority are the same if, for each priority, their items are. -/
theorem eq_of_falling {l l' : List (Priority × α)} (falling : l.Pairwise fun a b => b.1 ≤ a.1)
    (falling' : l'.Pairwise fun a b => b.1 ≤ a.1)
    (same : ∀ p : Priority, l.filter (·.1 = p) = l'.filter (·.1 = p)) : l = l' := by
  induction l generalizing l' with
  | nil =>
    refine (List.eq_nil_iff_forall_not_mem.mpr fun e among => ?_).symm
    have none := List.filter_eq_nil_iff.mp (same e.1).symm e among
    simp at none
  | cons a l ih =>
    cases l' with
    | nil =>
      have none := same a.1
      simp at none
    | cons b l' =>
      have mem (e : Priority × α) : e ∈ a :: l ↔ e ∈ b :: l' := by
        have here := congrArg (e ∈ ·) (same e.1)
        simpa only [List.mem_filter, decide_true, and_true, eq_iff_iff] using here
      rw [List.pairwise_cons] at falling falling'
      -- Either head is in the other list, where no item has a higher priority than its head.
      have first : b.1 ≤ a.1 :=
        (List.mem_cons.mp ((mem b).mpr List.mem_cons_self)).elim (· ▸ Nat.le_refl _) (falling.1 b)
      have first' : a.1 ≤ b.1 :=
        (List.mem_cons.mp ((mem a).mp List.mem_cons_self)).elim (· ▸ Nat.le_refl _) (falling'.1 a)
      have level : b.1 = a.1 := Nat.le_antisymm first first'
      obtain rfl : a = b := by
        have heads := same a.1
        simp only [List.filter_cons, level, decide_true, if_true] at heads
        exact (List.cons.inj heads).1
      refine congrArg (a :: ·) (ih falling.2 falling'.2 fun p => ?_)
      have all := same p
      simp only [List.filter_cons] at all
      split at all
      · exact (List.cons.inj all).2
      · exact all

/-- Arranging gives the one rearrangement in which priorities fall and the items of each priority
stand as they came in, and arranged items stay as they are. -/
theorem arrange_only_stable_order (items : List (Priority × α)) :
    (∀ l, l = arrange items ↔ l.Perm items ∧ (l.Pairwise fun a b => b.1 ≤ a.1) ∧
      ∀ p : Priority, l.filter (·.1 = p) = items.filter (·.1 = p)) ∧
    arrange (arrange items) = arrange items := by
  refine ⟨fun l => ⟨?_, ?_⟩, arrange_of_falling (arrange_falling items)⟩
  · rintro rfl
    exact ⟨arrange_perm items, arrange_falling items, filter_arrange items⟩
  · rintro ⟨-, falling, stable⟩
    apply eq_of_falling falling (arrange_falling items)
    intro p
    exact (stable p).trans (filter_arrange items p).symm

theorem arrange_filterMap {β : Type} (f : α → Option β) (items : List (Priority × α)) :
    (arrange items).filterMap (fun e => (f e.2).map (e.1, ·)) = arrange
      (items.filterMap fun e => (f e.2).map (e.1, ·)) := by
  have filtered (l : List (Priority × α)) (p : Priority) :
      (l.filterMap fun e => (f e.2).map (e.1, ·)).filter (·.1 = p) =
      (l.filter (·.1 = p)).filterMap fun e => (f e.2).map (e.1, ·) := by
    induction l with
    | nil => rfl
    | cons e l ih =>
      cases taken : f e.2 <;> by_cases level : e.1 = p <;> simp [taken, level, ih]
  refine eq_of_falling ?_ (arrange_falling _) fun p => ?_
  · refine (arrange_falling items).filterMap _ fun a b falls c taken d taken' => ?_
    obtain ⟨_, -, rfl⟩ := Option.map_eq_some_iff.mp taken
    obtain ⟨_, -, rfl⟩ := Option.map_eq_some_iff.mp taken'
    exact falls
  · rw [filter_arrange, filtered, filtered, filter_arrange]

theorem pair_sublist_of_lt {l : List α} {i j : Nat} {a b : α} (first : l[i]? = some a)
    (second : l[j]? = some b) (lt : i < j) : [a, b].Sublist l := by
  obtain ⟨bound, rfl⟩ := List.getElem?_eq_some_iff.mp first
  have later : b ∈ l.drop (i + 1) := by
    refine List.mem_iff_getElem?.mpr ⟨j - (i + 1), ?_⟩
    rw [List.getElem?_drop, ← second]
    congr 1
    omega
  have split : l[i] :: l.drop (i + 1) = l.drop i := (List.drop_eq_getElem_cons bound).symm
  have inside : [l[i], b].Sublist (l.drop i) :=
    split ▸ (List.singleton_sublist.mpr later).cons_cons _
  exact inside.trans (List.drop_sublist i l)

/-- An item that came in behind another, which is there once, stays behind it just if its priority
is no greater. -/
theorem arrange_lt_iff {before after : List (Priority × α)} {first second : Priority × α}
    (notAfter : first ∉ after) (behind : second ∉ before) (other : second ≠ first) {i j : Nat}
    (atFirst : (arrange (before ++ first :: after))[i]? = some first)
    (atSecond : (arrange (before ++ first :: after))[j]? = some second) :
    i < j ↔ second.1 ≤ first.1 := by
  have falling {a b : Priority × α} (here : [a, b].Sublist (arrange (before ++ first :: after))) :
      b.1 ≤ a.1 := by
    simpa using (arrange_falling _).sublist here
  constructor
  · intro lt
    exact falling (pair_sublist_of_lt atFirst atSecond lt)
  · intro le
    by_contra notLt
    have lt : j < i := by
      rcases Nat.lt_or_eq_of_le (Nat.le_of_not_lt notLt) with lt | rfl
      · exact lt
      · rw [atFirst] at atSecond
        exact absurd (Option.some.inj atSecond).symm other
    have turned := pair_sublist_of_lt atSecond atFirst lt
    have same : first.1 = second.1 := Nat.le_antisymm (falling turned) le
    -- Two items of one priority stand as they came in.
    have inside : [second, first].Sublist (before ++ first :: after) := by
      have filtered := turned.filter (·.1 = second.1)
      rw [filter_arrange] at filtered
      simp only [List.filter_cons, List.filter_nil, same, decide_true, if_true] at filtered
      exact filtered.trans List.filter_sublist
    obtain ⟨l, rest, split, early, late⟩ := List.sublist_append_iff.mp inside
    match l with
    | [] =>
      obtain rfl : rest = [second, first] := split.symm
      rcases List.sublist_cons_iff.mp late with later | ⟨_, eq, -⟩
      · exact notAfter (later.subset (by simp))
      · exact other (List.cons.inj eq).1
    | a :: l =>
      obtain rfl : second = a := (List.cons.inj split).1
      exact behind (early.subset List.mem_cons_self)

end ModuleLowering
