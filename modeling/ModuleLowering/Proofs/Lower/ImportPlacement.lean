import ModuleLowering.Proofs.Lower.Placement

/-!
Where imports go. They are grouped by path; a group comes to the variable of its module, if the path
has none yet, and behind it one variable for each imported name, namespaces first.
-/

set_option autoImplicit false

namespace ModuleLowering

namespace Specifier

def isNamespace : Specifier → Bool
  | .namespace _ => true
  | _ => false

/-- What the variable of an imported name is set to. In strict mode a namespace has none. -/
def value? (σ : Naming) (isStrict : Bool) (binding : String) : Specifier → Option Imported
  | .namespace _ => if isStrict then none else some (.wrapped (σ.ofHelper .interopWildcard) binding)
  | .default _ => some (.defaultOf (σ.ofHelper .interopDefault) binding)
  | .named _ imported =>
    some (if imported = "default" then .defaultOf (σ.ofHelper .interopDefault) binding
      else .property binding imported)

def redirect? (isStrict : Bool) (binding : String) : Specifier → Option Redirect
  | .namespace _ => if isStrict then some (.binding binding) else none
  | .default _ => none
  | .named _ imported => if imported = "default" then none else some (.member binding imported)

def emission (σ : Naming) (isStrict : Bool) (binding : String) (group : ImportGroup)
    (s : Specifier) : Emission :=
  { top := (s.value? σ isStrict binding).toList.map fun value =>
      (group.priority, .importVariable s.name value group.span),
    redirects := (s.redirect? isStrict binding).toList.map fun target => (s.name, target) }

end Specifier

namespace ImportGroup

def ordered (group : ImportGroup) : List Specifier :=
  group.specifiers.filter Specifier.isNamespace ++ group.specifiers.filter fun s => !s.isNamespace

def emission (σ : Naming) (isStrict : Bool) (known : List String) (path : String)
    (group : ImportGroup) : Emission :=
  if group.specifiers.isEmpty then { top := [(Priority.ordinary, .requireCall path group.span)] }
  else .required σ known path group.priority group.span ++
    .flatMap group.ordered (Specifier.emission σ isStrict (σ.ofPath path) group)

theorem paths_emission (σ : Naming) (isStrict : Bool) (known : List String) (path : String)
    (group : ImportGroup) :
    (group.emission σ isStrict known path).paths = if group.specifiers.isEmpty ∨ path ∈ known
      then [] else [path] := by
  have none :
      (Emission.flatMap group.ordered (Specifier.emission σ isStrict (σ.ofPath path) group)).paths =
        [] :=
    Emission.flatMap_nothing _
  unfold emission Emission.required
  by_cases bare : group.specifiers.isEmpty = true
  · simp [bare]
  · by_cases old : path ∈ known
    · simp [bare, old, none]
    · simp [bare, old, none]

theorem inPlace_emission (σ : Naming) (isStrict : Bool) (known : List String) (path : String)
    (group : ImportGroup) :
    (group.emission σ isStrict known path).body = [] ∧
      (group.emission σ isStrict known path).late = [] ∧
      (group.emission σ isStrict known path).imports = [] := by
  let bound : Emission :=
    .flatMap group.ordered (Specifier.emission σ isStrict (σ.ofPath path) group)
  have none : bound.body = [] ∧ bound.late = [] ∧ bound.imports = [] :=
    ⟨Emission.flatMap_nothing _, Emission.flatMap_nothing _, Emission.flatMap_nothing _⟩
  unfold emission Emission.required
  split
  · exact ⟨rfl, rfl, rfl⟩
  · split <;> exact none

theorem emission_congr {σ : Naming} {isStrict : Bool} {known known' : List String} {path : String}
    {group : ImportGroup} (same : path ∈ known ↔ path ∈ known') :
    group.emission σ isStrict known path = group.emission σ isStrict known' path := by
  unfold emission
  rw [Emission.required_congr same]

end ImportGroup

namespace Emission

theorem flatMap_append {α : Type} (as bs : List α) (f : α → Emission) :
    flatMap (as ++ bs) f = flatMap as f ++ flatMap bs f := by
  ext1 <;> exact List.flatMap_append

theorem flatMap_filter {α : Type} (as : List α) (p : α → Bool) (f : α → Emission) :
    flatMap (as.filter p) f = flatMap as fun a => if p a then f a else {} := by
  induction as with
  | nil => rfl
  | cons a as ih =>
    rw [List.filter_cons, flatMap_cons]
    split
    · rw [flatMap_cons, ih]
    · rw [ih, empty_append]

end Emission

namespace Draft

theorem options_helper (r : Draft) (which : Helper) : (r.helper which).2.options = r.options := by
  unfold helper
  split <;> rfl

theorem options_bindNamespace (r : Draft) (binding : String) (group : ImportGroup) (s : Specifier) :
    (r.bindNamespace binding group s).options = r.options := by
  unfold bindNamespace
  split
  · split
    · rfl
    · exact r.options_helper _
  · rfl

namespace Emits

variable {σ : Naming} {isStrict : Bool} {r : Draft}

theorem foldl_strict {α : Type} {f : Draft → α → Draft} {g : α → Emission} {as : List α}
    (keeps : ∀ r a, (f r a).options = r.options)
    (step : ∀ r : Draft, r.options.strict = isStrict → ∀ a ∈ as, Emits σ (g a) r (f r a))
    (strict : r.options.strict = isStrict) : Emits σ (.flatMap as g) r (as.foldl f r) := by
  induction as generalizing r with
  | nil => exact of_core rfl
  | cons a as ih =>
    have first := step r strict a List.mem_cons_self
    exact first.trans (ih (fun r strict b among => step r strict b (List.mem_cons_of_mem _ among))
      (by rw [keeps, strict]))

theorem bindNamespace (strict : r.options.strict = isStrict) (binding : String)
    (group : ImportGroup) (s : Specifier) :
    Emits σ (if s.isNamespace then s.emission σ isStrict binding group else {}) r
      (r.bindNamespace binding group s) := by
  cases s with
  | default | named => exact of_core rfl
  | «namespace» x =>
    simp only [Specifier.isNamespace, if_true, Specifier.emission, Specifier.value?,
      Specifier.redirect?, Draft.bindNamespace, strict]
    cases isStrict with
    | true => exact redirect r x (.binding binding)
    | false =>
      let made (h : String) : Emission :=
        { top := [(group.priority, .importVariable x (.wrapped h binding) group.span)] }
      exact with_helper made (hoist _ _ _)

theorem bindImported (isStrict : Bool) (r : Draft) (binding : String) (group : ImportGroup)
    (x imported : String) :
    Emits σ ((Specifier.named x imported).emission σ isStrict binding group) r
      (r.bindImported binding group x imported) := by
  simp only [Specifier.emission, Specifier.value?, Specifier.redirect?, Draft.bindImported]
  split
  · let made (h : String) : Emission :=
      { top := [(group.priority, .importVariable x (.defaultOf h binding) group.span)] }
    exact with_helper made (hoist _ _ _)
  · exact (redirect r x (.member binding imported)).trans (hoist _ _ _)

theorem bindName (isStrict : Bool) (r : Draft) (binding : String) (group : ImportGroup)
    (s : Specifier) :
    Emits σ (if !s.isNamespace then s.emission σ isStrict binding group else {}) r
      (r.bindName binding group s) := by
  cases s with
  | «namespace» x => exact of_core rfl
  | default x => exact bindImported isStrict r binding group x "default"
  | named x imported => exact bindImported isStrict r binding group x imported

theorem lowerGroup (strict : r.options.strict = isStrict) (path : String) (group : ImportGroup) :
    Emits σ (group.emission σ isStrict (r.requires.entries.map Prod.fst) path) r
      (r.lowerGroup path group) := by
  unfold Draft.lowerGroup ImportGroup.emission
  split
  · exact hoist _ _ _
  · let bound (binding : String) : Emission :=
      .flatMap group.ordered (Specifier.emission σ isStrict binding group)
    refine with_require bound ?_
    have strict' : (r.require path group.priority group.span).2.options.strict = isStrict := by
      rw [options_require, strict]
    dsimp only
    generalize r.require path group.priority group.span = step at strict' ⊢
    -- The names are gone through twice, for the namespaces and for the others.
    have spaces : Emits σ (.flatMap group.specifiers _) step.2 _ :=
      foldl_strict (fun r s => r.options_bindNamespace step.1 group s)
        (fun r strict s _ => bindNamespace strict step.1 group s) strict'
    have names (q : Draft) : Emits σ (.flatMap group.specifiers _) q _ :=
      foldl fun r s _ => bindName isStrict r step.1 group s
    simp only [bound, ImportGroup.ordered, Emission.flatMap_append, Emission.flatMap_filter]
    exact (spaces.trans (names _)).congr rfl rfl

theorem options_lowerGroup (strict : r.options.strict = isStrict) (path : String)
    (group : ImportGroup) :
    (r.lowerGroup path group).options.strict = isStrict := by
  rw [(lowerGroup strict path group (uses_naming _)).options, strict]

/-- Each path is grouped once, so that a group finds known what was known at first. -/
theorem lowerGroups (strict : r.options.strict = isStrict) {entries : List (String × ImportGroup)}
    (distinct : (entries.map Prod.fst).Nodup) :
    Emits σ (.flatMap entries fun e => e.2.emission σ isStrict (r.requires.entries.map Prod.fst)
      e.1) r (entries.foldl (fun r (path, group) => r.lowerGroup path group) r) := by
  induction entries generalizing r with
  | nil => exact of_core rfl
  | cons entry rest ih =>
    obtain ⟨path, group⟩ := entry
    obtain ⟨new, distinct⟩ := List.nodup_cons.mp distinct
    have first : Emits σ _ r _ := lowerGroup strict path group
    have others := ih (options_lowerGroup strict path group) distinct
    have same : ∀ e ∈ rest,
        e.2.emission σ isStrict ((r.lowerGroup path group).requires.entries.map Prod.fst) e.1 =
          e.2.emission σ isStrict (r.requires.entries.map Prod.fst) e.1 := by
      intro e among
      have apart : e.1 ≠ path := by
        rintro rfl
        exact new (List.mem_map.mpr ⟨e, among, rfl⟩)
      refine ImportGroup.emission_congr ?_
      rw [(lowerGroup strict path group (uses_naming _)).paths, List.mem_append,
        ImportGroup.paths_emission, or_iff_left]
      split <;> simp [apart]
    rw [Emission.flatMap_congr same] at others
    exact first.trans others

theorem lowerImports (strict : r.options.strict = isStrict)
    (distinct : (r.imports.entries.map Prod.fst).Nodup) :
    Emits σ (.flatMap r.imports.entries fun e => e.2.emission σ isStrict
      (r.requires.entries.map Prod.fst) e.1) { r with imports := .empty } r.lowerImports := by
  have strict' : ({ r with imports := .empty } : Draft).options.strict = isStrict := strict
  exact lowerGroups strict' distinct

end Emits

end Draft

end ModuleLowering
