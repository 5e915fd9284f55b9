import Mathlib.Data.List.Nodup
import Mathlib.Data.List.Pairwise
import ModuleLowering.Lower.Table

/-!
What the tables of a module hold after they were changed.
-/

set_option autoImplicit false

namespace ModuleLowering

namespace OrderedMap

variable {α : Type}

theorem mem_of_get? {t : OrderedMap α} {x : String} {a : α} (h : t.get? x = some a) :
    (x, a) ∈ t.entries := by
  simp only [get?, Option.map_eq_some_iff] at h
  obtain ⟨⟨k, b⟩, found, rfl⟩ := h
  have key : k = x := by simpa using List.find?_some found
  subst key
  exact List.mem_of_find?_eq_some found

theorem isEmpty_of_get? {t : OrderedMap α} {x : String} {a : α} (h : t.get? x = some a) :
    t.isEmpty = false := by
  have listed := mem_of_get? h
  cases entries : t.entries with
  | nil => rw [entries] at listed; cases listed
  | cons => simp [isEmpty, entries]

theorem entries_insert_of_none {m : OrderedMap α} {key : String}
    (missing : m.get? key = none) (a : α) :
    (m.insert key a).entries = m.entries ++ [(key, a)] := by
  obtain ⟨entries⟩ := m
  simp only [get?, Option.map_eq_none_iff] at missing
  simp only [insert, update]
  induction entries with
  | nil => rfl
  | cons entry rest ih =>
    simp only [List.find?_cons] at missing
    split at missing
    · cases missing
    · next other => simp [updateEntries, ih missing, by simpa using other]

theorem get?_update (m : OrderedMap α) (key : String) (initial : α) (f : α → α) (x : String) :
    (m.update key initial f).get? x = if x = key then some (f ((m.get? key).getD initial))
      else m.get? x := by
  obtain ⟨entries⟩ := m
  simp only [get?, update]
  induction entries with
  | nil =>
    by_cases same : x = key
    · simp [updateEntries, same]
    · simp [updateEntries, same, Ne.symm same]
  | cons entry rest ih =>
    obtain ⟨k, a⟩ := entry
    rw [updateEntries]
    by_cases here : k = key
    · subst here
      by_cases same : x = k
      · simp [same]
      · simp [same, Ne.symm same]
    · by_cases same : k = x
      · subst same
        simp [here]
      · simp only [if_neg here, List.find?_cons, beq_eq_false_iff_ne.mpr here,
          beq_eq_false_iff_ne.mpr same]
        exact ih

theorem mem_update {m : OrderedMap α} {key : String} {initial : α} {f : α → α} {entry : String × α}
    (among : entry ∈ (m.update key initial f).entries) :
    entry ∈ m.entries ∨ entry = (key, f initial) ∨ ∃ a, (key, a) ∈ m.entries ∧
      entry = (key, f a) := by
  obtain ⟨entries⟩ := m
  simp only [update] at among ⊢
  induction entries with
  | nil => exact .inr (.inl (by simpa [updateEntries] using among))
  | cons first rest ih =>
    obtain ⟨k, a⟩ := first
    simp only [updateEntries] at among
    split at among
    · next same =>
      subst same
      rcases List.mem_cons.mp among with rfl | later
      · exact .inr (.inr ⟨a, List.mem_cons_self, rfl⟩)
      · exact .inl (List.mem_cons_of_mem _ later)
    · rcases List.mem_cons.mp among with rfl | later
      · exact .inl List.mem_cons_self
      · rcases ih later with old | new | ⟨b, held, eq⟩
        · exact .inl (List.mem_cons_of_mem _ old)
        · exact .inr (.inl new)
        · exact .inr (.inr ⟨b, List.mem_cons_of_mem _ held, eq⟩)

theorem get?_eq_none_iff {m : OrderedMap α} {key : String} :
    m.get? key = none ↔ key ∉ m.entries.map Prod.fst := by
  simp only [get?, Option.map_eq_none_iff, List.find?_eq_none, List.mem_map, not_exists,
    not_and, beq_iff_eq]

theorem get?_eq_some_iff {m : OrderedMap α} (distinct : (m.entries.map Prod.fst).Nodup)
    {key : String} {a : α} :
    m.get? key = some a ↔ (key, a) ∈ m.entries := by
  refine ⟨mem_of_get?, fun listed => ?_⟩
  cases found : m.get? key with
  | none => exact absurd (List.mem_map_of_mem listed) (get?_eq_none_iff.mp found)
  | some b =>
    rw [(Prod.mk.inj (List.inj_on_of_nodup_map distinct (mem_of_get? found) listed rfl)).2]

def insertAll (t : OrderedMap α) (entries : List (String × α)) : OrderedMap α :=
  entries.foldl (fun t entry => t.insert entry.1 entry.2) t

theorem insertAll_append (t : OrderedMap α) (entries entries' : List (String × α)) :
    t.insertAll (entries ++ entries') = (t.insertAll entries).insertAll entries' :=
  List.foldl_append

theorem mem_insertAll {t : OrderedMap α} {entries : List (String × α)} {entry : String × α}
    (among : entry ∈ (t.insertAll entries).entries) : entry ∈ t.entries ∨ entry ∈ entries := by
  induction entries generalizing t with
  | nil => exact .inl among
  | cons first rest ih =>
    rcases ih among with before | later
    · rcases mem_update before with old | rfl | ⟨_, _, rfl⟩
      · exact .inl old
      · exact .inr List.mem_cons_self
      · exact .inr List.mem_cons_self
    · exact .inr (List.mem_cons_of_mem _ later)

theorem entries_insertAll {t : OrderedMap α} {entries : List (String × α)}
    (distinct : (t.entries.map Prod.fst ++ entries.map Prod.fst).Nodup) :
    (t.insertAll entries).entries = t.entries ++ entries := by
  induction entries generalizing t with
  | nil => exact (List.append_nil _).symm
  | cons entry rest ih =>
    have apart := List.nodup_append'.mp distinct
    have missing : t.get? entry.1 = none :=
      get?_eq_none_iff.mpr fun known => apart.2.2 known List.mem_cons_self
    have inserted := entries_insert_of_none missing entry.2
    have step : (t.insertAll (entry :: rest)).entries = (t.insert entry.1 entry.2).entries ++
      rest := by
      apply ih
      rw [inserted, List.map_append, List.append_assoc]
      exact distinct
    rw [step, inserted, List.append_assoc]
    rfl

end OrderedMap

namespace NameList

theorem mem_insert {l : NameList} {x y : String} :
    y ∈ (l.insert x).names ↔ y ∈ l.names ∨ y = x := by
  unfold insert
  split
  · next known =>
    have known : x ∈ l.names := by simpa using known
    exact ⟨.inl, fun h => h.elim id fun same => same ▸ known⟩
  · simp

theorem nodup_insert {l : NameList} (x : String) (distinct : l.names.Nodup) :
    (l.insert x).names.Nodup := by
  unfold insert
  split
  · exact distinct
  · next new => exact List.nodup_append_comm.mp (List.nodup_cons.mpr ⟨by simpa using new, distinct⟩)

end NameList

namespace ExportTable

def IsUnambiguous (t : ExportTable) : Prop := (t.entries.flatMap Prod.snd).Nodup

instance (t : ExportTable) : Decidable t.IsUnambiguous := inferInstanceAs (Decidable (List.Nodup _))

theorem IsUnambiguous.owner {t : ExportTable} (h : t.IsUnambiguous) {x y p : String}
    {xs ys : List String} (hx : t.get? x = some xs) (hy : t.get? y = some ys) (px : p ∈ xs)
    (py : p ∈ ys) :
    x = y := by
  by_contra different
  have pairwise := (List.nodup_flatMap.mp h).2
  have symmetric : Std.Symm (Function.onFun List.Disjoint (Prod.snd : String × List String →
    List String)) :=
    ⟨fun _ _ apart _ left right => apart right left⟩
  have disjoint : List.Disjoint xs ys :=
    pairwise.forall (OrderedMap.mem_of_get? hx) (OrderedMap.mem_of_get? hy)
      (fun same => different (congrArg Prod.fst same))
  exact disjoint px py

def Lists (t : ExportTable) (x exported : String) : Prop :=
  ∃ names, t.get? x = some names ∧ exported ∈ names

theorem lists_add {t : ExportTable} {x y p q : String} : (t.add y q).Lists x p ↔ t.Lists x p ∨
    x = y ∧ p = q := by
  simp only [Lists, add, OrderedMap.get?_update]
  by_cases same : x = y
  · subst same
    cases t.get? x <;> simp
  · simp [same]

def ofPairs (pairs : List (String × String)) : ExportTable :=
  pairs.foldl (fun t p => t.add p.1 p.2) .empty

theorem lists_ofPairs {pairs : List (String × String)} {x p : String} : (ofPairs pairs).Lists x p ↔
    (x, p) ∈ pairs := by
  have step (t : ExportTable) : (pairs.foldl (fun t p => t.add p.1 p.2) t).Lists x p ↔ t.Lists x p ∨
    (x, p) ∈ pairs := by
    induction pairs generalizing t with
    | nil => simp
    | cons first rest ih =>
      obtain ⟨y, q⟩ := first
      rw [List.foldl_cons, ih, lists_add, List.mem_cons, Prod.mk.injEq, or_assoc]
  have none : ¬ Lists .empty x p := by simp [Lists, OrderedMap.empty, OrderedMap.get?]
  rw [ofPairs, step, or_iff_right none]

theorem names_add (t : ExportTable) (y q : String) :
    ((t.add y q).entries.flatMap Prod.snd).Perm (t.entries.flatMap Prod.snd ++ [q]) := by
  obtain ⟨entries⟩ := t
  simp only [add, OrderedMap.update]
  induction entries with
  | nil => exact .refl _
  | cons first rest ih =>
    obtain ⟨k, names⟩ := first
    rw [OrderedMap.updateEntries]
    split
    · simp only [List.flatMap_cons, List.append_assoc]
      exact List.perm_append_comm.append_left names
    · simp only [List.flatMap_cons, List.append_assoc]
      exact ih.append_left names

theorem isUnambiguous_ofPairs {pairs : List (String × String)}
    (distinct : (pairs.map Prod.snd).Nodup) :
    (ofPairs pairs).IsUnambiguous := by
  have names (t : ExportTable) :
      ((pairs.foldl (fun t p => t.add p.1 p.2) t).entries.flatMap Prod.snd).Perm
        (t.entries.flatMap Prod.snd ++ pairs.map Prod.snd) := by
    clear distinct
    induction pairs generalizing t with
    | nil => simp
    | cons first rest ih =>
      refine (ih _).trans (((names_add t _ _).append_right _).trans ?_)
      rw [List.append_assoc, List.singleton_append, List.map_cons]
  exact (names .empty).nodup_iff.mpr distinct

end ExportTable

end ModuleLowering
