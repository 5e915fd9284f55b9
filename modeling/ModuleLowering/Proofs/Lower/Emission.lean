import ModuleLowering.Proofs.Lower.ExportEntry

/-!
What comes of each statement while a module is taken apart, as a function of the statement and of
those before it. The names of required modules and helpers are left open there; the finished draft
settles them.
-/

set_option autoImplicit false

namespace ModuleLowering

structure Naming where
  ofPath : String → String
  ofHelper : Helper → String

structure ImportRecord where
  path : String
  span : Option Span
  priority : Priority
  specifiers : List Specifier

/-- What is added to a draft. -/
@[ext]
structure Emission where
  top : List (Priority × Item) := []
  body : List (Priority × Item) := []
  imports : List ImportRecord := []
  /-- The paths that are required for the first time. -/
  paths : List String := []
  late : List String := []
  redirects : List (String × Redirect) := []

namespace Emission

instance : Append Emission where
  append e e' := ⟨e.top ++ e'.top, e.body ++ e'.body, e.imports ++ e'.imports, e.paths ++ e'.paths,
    e.late ++ e'.late, e.redirects ++ e'.redirects⟩

variable (e e' : Emission)

@[simp] theorem top_append : (e ++ e').top = e.top ++ e'.top := rfl
@[simp] theorem body_append : (e ++ e').body = e.body ++ e'.body := rfl
@[simp] theorem imports_append : (e ++ e').imports = e.imports ++ e'.imports := rfl
@[simp] theorem paths_append : (e ++ e').paths = e.paths ++ e'.paths := rfl
@[simp] theorem late_append : (e ++ e').late = e.late ++ e'.late := rfl
@[simp] theorem redirects_append : (e ++ e').redirects = e.redirects ++ e'.redirects := rfl

@[simp] theorem empty_append : {} ++ e = e := rfl

@[simp] theorem append_empty : e ++ {} = e := by
  ext1 <;> exact List.append_nil _

theorem append_assoc (e'' : Emission) : e ++ e' ++ e'' = e ++ (e' ++ e'') := by
  ext1 <;> exact List.append_assoc ..

def flatMap {α : Type} (as : List α) (f : α → Emission) : Emission :=
  ⟨as.flatMap fun a => (f a).top, as.flatMap fun a => (f a).body, as.flatMap fun a => (f a).imports,
    as.flatMap fun a => (f a).paths, as.flatMap fun a => (f a).late, as.flatMap fun a =>
    (f a).redirects⟩

theorem flatMap_cons {α : Type} (a : α) (as : List α) (f : α → Emission) :
    flatMap (a :: as) f = f a ++ flatMap as f := rfl

theorem flatMap_congr {α : Type} {as : List α} {f g : α → Emission} (same : ∀ a ∈ as, f a = g a) :
    flatMap as f = flatMap as g := by
  induction as with
  | nil => rfl
  | cons a as ih =>
    rw [flatMap_cons, flatMap_cons, same a List.mem_cons_self, ih fun b among => same b
      (List.mem_cons_of_mem _ among)]

theorem flatMap_map {α β : Type} (as : List α) (f : α → β) (g : β → Emission) :
    flatMap (as.map f) g = flatMap as fun a => g (f a) := by
  simp only [flatMap, List.flatMap_map]

theorem flatMap_nothing {α β : Type} (as : List α) : (as.flatMap fun _ => ([] : List β)) = [] :=
  List.flatMap_eq_nil_iff.mpr fun _ _ => rfl

/-- The variable of a required module, unless its path is known already. -/
def required (σ : Naming) (known : List String) (path : String) (priority : Priority)
    (span : Option Span) : Emission :=
  if path ∈ known then {} else
    { top := [(priority, .requireBinding (σ.ofPath path) path span)], paths := [path] }

end Emission

def ImportTable.recordAll (t : ImportTable) (records : List ImportRecord) : ImportTable :=
  records.foldl (fun t i => t.record i.path i.span i.priority i.specifiers) t

namespace Draft

/-- In the draft, required modules and helpers have the names that are given. -/
structure Uses (r : Draft) (σ : Naming) : Prop where
  paths : ∀ path name, r.requires.get? path = some name → name = σ.ofPath path
  helpers : ∀ h entry, (r.helpers.find? fun (h', _) => h' = h) = some entry → entry.2 = σ.ofHelper h

def naming (r : Draft) : Naming where
  ofPath path := (r.requires.get? path).getD ""
  ofHelper h := ((r.helpers.find? fun (h', _) => h' = h).map Prod.snd).getD ""

theorem uses_naming (r : Draft) : r.Uses r.naming where
  paths path name found := by simp [naming, found]
  helpers h entry found := by simp [naming, found]

structure Emitted (σ : Naming) (e : Emission) (r r' : Draft) : Prop where
  uses : r.Uses σ
  options : r'.options = r.options
  top : r'.top = r.top ++ e.top
  body : r'.body = r.body ++ e.body
  imports : r'.imports = r.imports.recordAll e.imports
  importing : r'.hasImports = (r.hasImports || !e.imports.isEmpty)
  paths : r'.requires.entries.map Prod.fst = r.requires.entries.map Prod.fst ++ e.paths
  late : ∀ x, x ∈ r'.predeclared.names ↔ x ∈ r.predeclared.names ∨ x ∈ e.late
  distinct : r.predeclared.names.Nodup → r'.predeclared.names.Nodup
  redirects : r'.redirects = r.redirects.insertAll e.redirects

theorem Emitted.refl {σ : Naming} (r : Draft) (uses : r.Uses σ) : Emitted σ {} r r where
  uses := uses
  options := rfl
  top := (List.append_nil _).symm
  body := (List.append_nil _).symm
  imports := rfl
  importing := (Bool.or_false _).symm
  paths := (List.append_nil _).symm
  late _ := (or_iff_left List.not_mem_nil).symm
  distinct := id
  redirects := rfl

def emissionCore (r : Draft) : Options × List (Helper × String) × ImportTable × Bool ×
    RedirectTable × RequireTable × NameList × List (Priority × Item) × List (Priority × Item) :=
  (r.options, r.helpers, r.imports, r.hasImports, r.redirects, r.requires, r.predeclared, r.top,
    r.body)

/-- The step adds `e` if the names turn out to be the given ones. -/
def Emits (σ : Naming) (e : Emission) (r r' : Draft) : Prop := r'.Uses σ → Emitted σ e r r'

namespace Emits

variable {σ : Naming} {e e' : Emission} {r r₁ r' : Draft}

theorem of_core (same : r'.emissionCore = r.emissionCore) : Emits σ {} r r' := by
  intro uses
  simp only [emissionCore, Prod.mk.injEq] at same
  obtain ⟨options, helpers, imports, importing, redirects, requires, predeclared, top, body⟩ := same
  have before : r.Uses σ := ⟨requires ▸ uses.paths, helpers ▸ uses.helpers⟩
  constructor
  case uses => exact before
  case options => exact options
  case imports => exact imports
  case importing => exact importing.trans (Bool.or_false _).symm
  case redirects => exact redirects
  all_goals simp only [top, body, requires, predeclared]
  case distinct => exact id
  all_goals simp

theorem trans (first : Emits σ e r r₁) (second : Emits σ e' r₁ r') : Emits σ (e ++ e') r r' := by
  intro uses
  have later := second uses
  have earlier := first later.uses
  refine ⟨earlier.uses, later.options.trans earlier.options, ?_, ?_, ?_, ?_, ?_, fun x => ?_, ?_,
    ?_⟩
  · rw [later.top, earlier.top, List.append_assoc]
    rfl
  · rw [later.body, earlier.body, List.append_assoc]
    rfl
  · rw [later.imports, earlier.imports, ImportTable.recordAll, ImportTable.recordAll,
      ← List.foldl_append]
    rfl
  · rw [later.importing, earlier.importing, Emission.imports_append, Bool.or_assoc]
    cases e.imports <;> rfl
  · rw [later.paths, earlier.paths, List.append_assoc]
    rfl
  · rw [later.late, earlier.late, or_assoc, Emission.late_append, List.mem_append]
  · exact fun known => later.distinct (earlier.distinct known)
  · rw [later.redirects, earlier.redirects, Emission.redirects_append, OrderedMap.insertAll_append]

theorem congr {q q' : Draft} (h : Emits σ e r r') (before : r.emissionCore = q.emissionCore)
    (after : q'.emissionCore = r'.emissionCore) : Emits σ e q q' := by
  have all : Emits σ (({} ++ e) ++ {}) q q' := ((of_core before).trans h).trans (of_core after)
  rwa [Emission.append_empty, Emission.empty_append] at all

/-- The order of late exports does not matter. -/
theorem relisted {top body : List (Priority × Item)} {late late' : List String}
    (h : Emits σ { top := top, body := body, late := late } r r')
    (same : ∀ x, x ∈ late ↔ x ∈ late') :
    Emits σ { top := top, body := body, late := late' } r r' := by
  intro uses
  have added := h uses
  exact { added with late := fun x => (added.late x).trans (or_congr_right (same x)) }

theorem foldl {α : Type} {f : Draft → α → Draft} {g : α → Emission} {as : List α}
    (step : ∀ r : Draft, ∀ a ∈ as, Emits σ (g a) r (f r a)) : Emits σ (.flatMap as g) r
    (as.foldl f r) := by
  induction as generalizing r with
  | nil => exact of_core rfl
  | cons a as ih =>
    exact (step r a List.mem_cons_self).trans
      (ih fun r b among => step r b (List.mem_cons_of_mem _ among))

theorem keep (r : Draft) (priority : Priority) (item : Item) :
    Emits σ { body := [(priority, item)] } r (r.keep priority item) := fun uses =>
  { Emitted.refl r ⟨uses.paths, uses.helpers⟩ with body := rfl }

theorem hoist (r : Draft) (priority : Priority) (item : Item) :
    Emits σ { top := [(priority, item)] } r (r.hoist priority item) := fun uses =>
  { Emitted.refl r ⟨uses.paths, uses.helpers⟩ with top := rfl }

theorem predeclare (r : Draft) (x : String) :
    Emits σ { late := [x] } r { r with predeclared := r.predeclared.insert x } := fun uses =>
  { Emitted.refl r ⟨uses.paths, uses.helpers⟩ with
    late := fun y => by simp [NameList.mem_insert]
    distinct := NameList.nodup_insert x }

theorem redirect (r : Draft) (x : String) (target : Redirect) :
    Emits σ { redirects := [(x, target)] } r { r with redirects := r.redirects.insert x target } :=
      fun uses =>
  { Emitted.refl r ⟨uses.paths, uses.helpers⟩ with redirects := rfl }

theorem noteExportName (r : Draft) (x : String) : Emits σ {} r (r.noteExportName x) := by
  unfold Draft.noteExportName
  split <;> exact of_core rfl

theorem helper (r : Draft) (which : Helper) : Emits σ {} r (r.helper which).2 := by
  unfold Draft.helper
  split
  · exact of_core rfl
  · intro uses
    have before : r.Uses σ := by
      refine ⟨uses.paths, fun h entry found => uses.helpers h entry ?_⟩
      rw [List.find?_append, found]
      rfl
    exact { Emitted.refl r before with }

theorem helper_name {which : Helper} (uses : (r.helper which).2.Uses σ) :
    (r.helper which).1 = σ.ofHelper which := by
  unfold Draft.helper at uses ⊢
  split
  · next used name found =>
    simp only [found] at uses
    exact uses.helpers which _ found
  · next unused =>
    simp only [unused] at uses
    refine uses.helpers which (which, _) ?_
    rw [List.find?_append, unused]
    simp

theorem require (r : Draft) (path : String) (priority : Priority) (span : Option Span) :
    Emits σ (.required σ (r.requires.entries.map Prod.fst) path priority span) r
      (r.require path priority span).2 := by
  cases found : r.requires.get? path with
  | some name =>
    have known : path ∈ r.requires.entries.map Prod.fst := by
      by_contra new
      rw [OrderedMap.get?_eq_none_iff.mpr new] at found
      cases found
    rw [Emission.required, if_pos known, Draft.require, found]
    exact of_core rfl
  | none =>
    rw [Emission.required, if_neg (OrderedMap.get?_eq_none_iff.mp found), Draft.require, found]
    intro uses
    let name := (r.taken.generate (moduleBasename path)).1
    have settled (other found : String) (listed : (r.requires.insert path name).get?
      other = some found) :
        found = σ.ofPath other := uses.paths other found listed
    simp only [OrderedMap.insert, OrderedMap.get?_update] at settled
    have named : name = σ.ofPath path := settled path name (if_pos rfl)
    -- The new path was not there, so the names of the others are settled as they were.
    have before : r.Uses σ := by
      refine ⟨fun other known listed => settled other known ?_, uses.helpers⟩
      rw [if_neg, listed]
      rintro rfl
      rw [found] at listed
      cases listed
    have paths : (r.requires.insert path name).entries.map Prod.fst = r.requires.entries.map
      Prod.fst ++ [path] := by
      rw [OrderedMap.entries_insert_of_none found, List.map_append]
      rfl
    exact { Emitted.refl r before with top := by rw [← named]; rfl, paths := paths }

theorem require_name {path : String} {priority : Priority} {span : Option Span}
    (uses : (r.require path priority span).2.Uses σ) :
    (r.require path priority span).1 = σ.ofPath path := by
  unfold Draft.require at uses ⊢
  split
  · next found =>
    simp only [found] at uses
    exact uses.paths path _ found
  · next new =>
    simp only [new] at uses
    refine uses.paths path _ ?_
    show OrderedMap.get? (OrderedMap.insert r.requires path _) path = _
    rw [OrderedMap.insert, OrderedMap.get?_update, if_pos rfl]

theorem with_helper {which : Helper} (g : String → Emission)
    (rest : Emits σ (g (r.helper which).1) (r.helper which).2 r') :
    Emits σ (g (σ.ofHelper which)) r r' := by
  intro uses
  have first : Emits σ _ r _ := helper r which
  rw [← helper_name (rest uses).uses]
  exact (first.trans rest) uses

theorem with_require {path : String} {priority : Priority} {span : Option Span}
    (g : String → Emission) (rest : Emits σ (g (r.require path priority span).1)
    (r.require path priority span).2 r') :
    Emits σ (.required σ (r.requires.entries.map Prod.fst) path priority span ++ g (σ.ofPath path))
      r r' := by
  intro uses
  have first : Emits σ _ r _ := require r path priority span
  rw [← require_name (rest uses).uses]
  exact (first.trans rest) uses

theorem exportBehind (r : Draft) (x exported : String) (value : Node) :
    Emits σ { body := [(Priority.ordinary, .exportValue exported value none)], late := [exported] }
      r (r.exportBehind x exported value) := by
  have all : Emits σ ({ late := [exported] } ++
    { body := [(Priority.ordinary, .exportValue exported value none)] }) r _ :=
    (predeclare r exported).trans (keep _ Priority.ordinary (.exportValue exported value none))
  exact all.congr rfl rfl

end Emits

end Draft

end ModuleLowering
