import ModuleLowering.Proofs.Lower.Emission
import ModuleLowering.Proofs.Lower.FirstOccurrence

/-!
What the tables hold after any operations on them. The keys stand in the order in which they came in
first, and the value of a key is what the operations at this key come to, whatever others stand
between them.
-/

set_option autoImplicit false

namespace ModuleLowering

namespace OrderedMap

variable {α β : Type}

theorem keys_update (m : OrderedMap α) (key : String) (initial : α) (f : α → α) :
    (m.update key initial f).entries.map Prod.fst =
      if key ∈ m.entries.map Prod.fst then m.entries.map Prod.fst
      else m.entries.map Prod.fst ++ [key] := by
  obtain ⟨entries⟩ := m
  simp only [update]
  induction entries with
  | nil => rfl
  | cons entry rest ih =>
    rw [updateEntries]
    by_cases here : entry.1 = key
    · simp [here]
    · simp only [if_neg here, List.map_cons, ih, List.mem_cons, Ne.symm here, false_or]
      split <;> rfl

section
variable (key : β → String) (initial : β → α) (change : β → α → α) (log : List β)

def afterAll : OrderedMap α := log.foldl (fun t o => t.update (key o) (initial o) (change o)) .empty

theorem keys_afterAll : (afterAll key initial change log).entries.map Prod.fst =
    (log.map key).eraseDups := by
  induction log using List.reverseRecOn with
  | nil => rfl
  | append_singleton log o ih =>
    rw [afterAll, List.foldl_concat, keys_update, ← afterAll, ih, List.map_append,
      List.map_singleton, FirstOccurrence.eraseDups_concat]
    simp only [List.mem_eraseDups]

end

structure SumsUp (initial : β → α) (change : β → α → α) (sum : List β → Option α) : Prop where
  nil : sum [] = none
  concat (log : List β) (o : β) : sum (log ++ [o]) = some (change o ((sum log).getD (initial o)))

namespace SumsUp

variable {initial : β → α} {change : β → α → α} {sum : List β → Option α}

theorem get?_afterAll (h : SumsUp initial change sum) (key : β → String) (log : List β)
    (x : String) :
    (afterAll key initial change log).get? x = sum (log.filter (key · = x)) := by
  induction log using List.reverseRecOn with
  | nil => exact h.nil.symm
  | append_singleton log o ih =>
    rw [afterAll, List.foldl_concat, get?_update, ← afterAll, List.filter_append]
    -- The last operation counts at its own key, behind all others there.
    by_cases here : x = key o
    · subst here
      simp [ih, h.concat]
    · simp [ih, here, Ne.symm here]

theorem entries_afterAll (h : SumsUp initial change sum) (key : β → String) (log : List β)
    {value : String → α} (sums : ∀ x ∈ log.map key, sum (log.filter (key · = x)) = some (value x)) :
    (afterAll key initial change log).entries = (log.map key).eraseDups.map fun x =>
      (x, value x) := by
  have keys := keys_afterAll key initial change log
  have distinct : ((afterAll key initial change log).entries.map Prod.fst).Nodup :=
    keys ▸ FirstOccurrence.nodup_eraseDups _
  rw [← keys, List.map_map]
  refine (List.map_id _).symm.trans (List.map_congr_left fun e among => ?_)
  -- An entry holds what its key is looked up as, for no other entry has this key.
  have known : e.1 ∈ log.map key := List.mem_eraseDups.mp (keys ▸ List.mem_map_of_mem among)
  have held := (get?_eq_some_iff distinct).mpr among
  rw [h.get?_afterAll, sums _ known] at held
  exact Prod.ext rfl (Option.some.inj held).symm

end SumsUp

/-- The table has the last value inserted for each key, and counts each key once. -/
structure HoldsLast (t : OrderedMap α) (log : List (String × α)) : Prop where
  value (x : String) : t.get? x = (log.filter (·.1 = x)).getLast?.map Prod.snd
  size : t.size = (log.map Prod.fst).eraseDups.length

theorem holdsLast_insertAll (log : List (String × α)) : (empty.insertAll log).HoldsLast log := by
  have last : SumsUp (fun e : String × α => e.2) (fun e _ => e.2) fun log =>
    log.getLast?.map Prod.snd :=
    ⟨rfl, by simp⟩
  constructor
  · exact last.get?_afterAll Prod.fst log
  · rw [← keys_afterAll Prod.fst Prod.snd (fun e _ => e.2) log, List.length_map]
    rfl

end OrderedMap

def sumUnlessNil {α β : Type} (sum : List β → α) (log : List β) : Option α :=
  if log = [] then none else some (sum log)

theorem sumUnlessNil_filter {α β : Type} (sum : List β → α) (key : β → String) (log : List β)
    (x : String) :
    sumUnlessNil sum (log.filter (key · = x)) =
      if x ∈ log.map key then some (sum (log.filter (key · = x))) else none := by
  have some : log.filter (key · = x) = [] ↔ x ∉ log.map key := by simp [List.filter_eq_nil_iff]
  by_cases known : x ∈ log.map key
  · rw [sumUnlessNil, if_pos known, if_neg fun none => some.mp none known]
  · rw [sumUnlessNil, if_neg known, if_pos (some.mpr known)]

def ImportGroup.ofRecords (records : List ImportRecord) : ImportGroup where
  specifiers := records.flatMap ImportRecord.specifiers
  priority := records.foldl (fun p i => max p i.priority) Priority.ordinary
  span := records.head?.bind ImportRecord.span

def ImportGroup.extend (group : ImportGroup) (i : ImportRecord) : ImportGroup :=
  { group with
    specifiers := group.specifiers ++ i.specifiers
    priority := max group.priority i.priority }

theorem ImportGroup.sumsUp_extend :
    OrderedMap.SumsUp (fun i => ⟨[], Priority.ordinary, i.span⟩) (fun i g => extend g i)
      (sumUnlessNil ofRecords) := by
  refine ⟨rfl, fun records i => ?_⟩
  cases records <;> simp [sumUnlessNil, ofRecords, extend, List.foldl_append]

theorem ImportTable.entries_recordAll (records : List ImportRecord) :
    (recordAll .empty records).entries = (records.map ImportRecord.path).eraseDups.map fun path =>
      (path, .ofRecords (records.filter (·.path = path))) :=
  ImportGroup.sumsUp_extend.entries_afterAll ImportRecord.path records fun path known => by
    rw [sumUnlessNil_filter, if_pos known]

theorem ExportTable.get?_ofPairs (pairs : List (String × String)) (x : String) :
    (ofPairs pairs).get? x =
    if x ∈ pairs.map Prod.fst then some ((pairs.filter (·.1 = x)).map Prod.snd) else none := by
  have names : OrderedMap.SumsUp (fun _ : String × String => []) (fun p names => names ++ [p.2])
      (sumUnlessNil (List.map Prod.snd)) :=
    ⟨rfl, fun pairs p => by cases pairs <;> simp [sumUnlessNil]⟩
  exact (names.get?_afterAll Prod.fst pairs x).trans (sumUnlessNil_filter ..)

theorem NameList.names_foldl_insert (names : List String) :
    (names.foldl insert empty).names = names.eraseDups := by
  induction names using List.reverseRecOn with
  | nil => rfl
  | append_singleton names x ih =>
    rw [List.foldl_concat, insert, FirstOccurrence.eraseDups_concat, ih]
    simp only [List.contains_iff_mem, List.mem_eraseDups]
    split
    · exact ih
    · rfl

/-- The tables sum up what was done to them. Of imports, each path stands once, where it came first,
with all its specifiers, its greatest priority and its first place; of exports, each variable has
its names in order; of redirects and required modules, the last one counts; and names stand once,
where they came first. -/
theorem tables_sum_up (imports : List ImportRecord) (exports : List (String × String))
    (redirects : List (String × Redirect)) (requires : List (String × String))
    (names : List String) :
    (ImportTable.recordAll .empty imports).entries =
      (imports.map ImportRecord.path).eraseDups.map
        (fun path => (path, .ofRecords (imports.filter (·.path = path)))) ∧
    ((ExportTable.ofPairs exports).entries.map Prod.fst = (exports.map Prod.fst).eraseDups ∧
      ∀ x, (ExportTable.ofPairs exports).get? x =
        if x ∈ exports.map Prod.fst then some ((exports.filter (·.1 = x)).map Prod.snd) else none) ∧
    (OrderedMap.empty.insertAll redirects).HoldsLast redirects ∧
    (OrderedMap.empty.insertAll requires).HoldsLast requires ∧
    (names.foldl NameList.insert .empty).names = names.eraseDups := by
  refine ⟨ImportTable.entries_recordAll imports, ⟨?_, ExportTable.get?_ofPairs exports⟩,
    OrderedMap.holdsLast_insertAll redirects, OrderedMap.holdsLast_insertAll requires,
    NameList.names_foldl_insert names⟩
  exact OrderedMap.keys_afterAll Prod.fst (fun _ => []) (fun p names => names ++ [p.2]) exports

end ModuleLowering
