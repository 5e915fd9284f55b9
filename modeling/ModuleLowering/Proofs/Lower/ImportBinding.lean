import ModuleLowering.Proofs.Lower.RequireBinding

/-!
How imported names are bound. Each has a variable of its own or, in strict mode, a namespace stands
for the variable of its module. No name is lost on the way, none is bound twice, and each is bound
to the module it was imported from.
-/

set_option autoImplicit false

namespace ModuleLowering

namespace OrderedMap

variable {ι α : Type}

def entriesOf (is : List ι) (name : ι → String) (f : ι → Option α) : List (String × α) :=
  is.filterMap fun i => (f i).map fun a => (name i, a)

theorem entriesOf_eq_flatMap (is : List ι) (name : ι → String) (f : ι → Option α) :
    entriesOf is name f = is.flatMap fun i => (f i).toList.map fun a => (name i, a) := by
  rw [entriesOf, List.filterMap_eq_flatMap_toList]
  apply List.flatMap_congr
  intro i _
  cases f i <;> rfl

theorem keys_filter_entriesOf (is : List ι) (name : ι → String) (f : ι → Option α) (q : α → Bool) :
    ((entriesOf is name f).filter fun e => q e.2).map Prod.fst =
      (is.filter fun i => (f i).any q).map name := by
  induction is with
  | nil => rfl
  | cons i is ih =>
    rw [entriesOf] at ih ⊢
    rw [List.filterMap_cons, List.filter_cons]
    cases f i with
    | none => exact ih
    | some a => cases found : q a <;> simp [found, ih]

theorem keys_entriesOf (is : List ι) (name : ι → String) (f : ι → Option α) :
    (entriesOf is name f).map Prod.fst = (is.filter fun i => (f i).isSome).map name := by
  have all := keys_filter_entriesOf is name f fun _ => true
  rw [List.filter_true] at all
  rw [all]
  congr 2

theorem get?_entriesOf {is : List ι} (name : ι → String) (f : ι → Option α)
    (distinct : (is.map name).Nodup) {i : ι} (among : i ∈ is) : (mk (entriesOf is name f)).get?
    (name i) = f i := by
  have keys : ((entriesOf is name f).map Prod.fst).Nodup := by
    rw [keys_entriesOf]
    exact distinct.sublist (List.filter_sublist.map name)
  cases given : f i with
  | some a =>
    apply (get?_eq_some_iff keys).mpr
    exact List.mem_filterMap.mpr ⟨i, among, by rw [given]; rfl⟩
  | none =>
    apply get?_eq_none_iff.mpr
    intro listed
    change name i ∈ (entriesOf is name f).map Prod.fst at listed
    rw [keys_entriesOf] at listed
    obtain ⟨j, some, same⟩ := List.mem_map.mp listed
    obtain ⟨among', held⟩ := List.mem_filter.mp some
    rw [List.inj_on_of_nodup_map distinct among' among same, given] at held
    cases held

end OrderedMap

namespace Node

def imports (ns : List Node) : List (String × Specifier) :=
  (ns.filterMap imported?).flatMap fun entry => entry.2.map fun s => (entry.1, s)

def importsFrom (ns : List Node) (path : String) : List Specifier :=
  ((imports ns).filter fun i => i.1 = path).map Prod.snd

def isImport (n : Node) : Bool :=
  n.form matches .importDecl ..

end Node

def Item.importVariable? : Item → Option (String × Imported)
  | .importVariable x value _ => some (x, value)
  | _ => none

def Redirect.isBinding : Redirect → Bool
  | .binding _ => true
  | .member .. => false

namespace Draft

def importVariables (r : Draft) : List (String × Imported) :=
  (r.top ++ r.body).filterMap fun e => e.2.importVariable?

def standIns (r : Draft) : List String :=
  (r.redirects.entries.filter fun e => e.2.isBinding).map Prod.fst

def BindsDefault (r : Draft) (binding x : String) : Prop :=
  r.redirects.get? x = none ∧
    ∃ h, (Helper.interopDefault, h) ∈ r.helpers ∧
    (x, Imported.defaultOf h binding) ∈ r.importVariables

def Binds (r : Draft) (binding : String) : Specifier → Prop
  | .default x => r.BindsDefault binding x
  | .named x imported =>
    if imported = "default" then r.BindsDefault binding x
    else r.redirects.get? x = some (.member binding imported) ∧
      (x, .property binding imported) ∈ r.importVariables
  | .namespace x =>
    if r.options.strict then r.redirects.get? x = some (.binding binding) ∧
      x ∉ r.importVariables.map Prod.fst
    else r.redirects.get? x = none ∧
      ∃ h, (Helper.interopWildcard, h) ∈ r.helpers ∧ (x, .wrapped h binding) ∈ r.importVariables

end Draft

namespace Specifier

variable {σ : Naming} {isStrict : Bool} {binding : String}

theorem isSome_value? (s : Specifier) : (s.value? σ isStrict binding).isSome =
    !(s.isNamespace && isStrict) := by
  cases s <;> cases isStrict <;> rfl

theorem any_redirect? (s : Specifier) :
    (s.redirect? isStrict binding).any Redirect.isBinding = (s.isNamespace && isStrict) := by
  cases s with
  | default x => rfl
  | «namespace» x => cases isStrict <;> rfl
  | named x imported =>
    simp only [redirect?]
    split <;> rfl

end Specifier

namespace ImportGroup

variable {σ : Naming} {isStrict : Bool} {known : List String} {path : String} {group : ImportGroup}

theorem ordered_of_isEmpty (bare : group.specifiers.isEmpty = true) : group.ordered = [] := by
  rw [ordered, List.isEmpty_iff.mp bare]
  rfl

theorem importVariables_emission : (group.emission σ isStrict known path).top.filterMap
    (fun e => e.2.importVariable?) =
    OrderedMap.entriesOf group.ordered Specifier.name
    (Specifier.value? σ isStrict (σ.ofPath path)) := by
  unfold emission
  split
  · next bare =>
    rw [ordered_of_isEmpty bare]
    rfl
  · have silent : (Emission.required σ known path group.priority group.span).top.filterMap
        (fun e => e.2.importVariable?) = [] := by
      unfold Emission.required
      split <;> rfl
    rw [Emission.top_append, List.filterMap_append, silent, List.nil_append,
      OrderedMap.entriesOf_eq_flatMap]
    refine List.filterMap_flatMap.trans (List.flatMap_congr fun s _ => ?_)
    rw [Specifier.emission]
    cases s.value? σ isStrict (σ.ofPath path) <;> rfl

theorem redirects_emission : (group.emission σ isStrict known path).redirects =
    OrderedMap.entriesOf group.ordered Specifier.name
    (Specifier.redirect? isStrict (σ.ofPath path)) := by
  unfold emission
  split
  · next bare =>
    rw [ordered_of_isEmpty bare]
    rfl
  · have silent : (Emission.required σ known path group.priority group.span).redirects = [] := by
      unfold Emission.required
      split <;> rfl
    rw [Emission.redirects_append, silent, List.nil_append, OrderedMap.entriesOf_eq_flatMap]
    rfl

theorem specifiers_of (hints : Hints) (ns : List Node) (path : String) :
    (of hints ns path).specifiers = Node.importsFrom ns path := by
  induction ns with
  | nil => rfl
  | cons n ns ih =>
    simp only [of, ofRecords, Node.importsFrom, Node.imports, Node.importRecord?] at ih
    cases imported : n.imported? with
    | none =>
      simpa [of, ofRecords, Node.importsFrom, Node.imports, Node.importRecord?, imported] using ih
    | some entry =>
      by_cases here : entry.1 = path <;>
        simpa [of, ofRecords, Node.importsFrom, Node.imports, Node.importRecord?, imported, here,
          List.filter_map, Function.comp_def] using ih

end ImportGroup

namespace Node

/-- What statements import, in the order it is bound: path by path, and from each the namespaces
first. -/
def orderedImports (ns : List Node) : List (String × Specifier) :=
  (ns.filterMap importedPath?).eraseDups.flatMap fun path =>
    ((importsFrom ns path).filter Specifier.isNamespace ++ (importsFrom ns path).filter fun s =>
      !s.isNamespace).map fun s => (path, s)

theorem map_importsFrom (ns : List Node) (path : String) :
    ((importsFrom ns path).map fun s => (path, s)) = (imports ns).filter fun i => i.1 = path := by
  rw [importsFrom, List.map_map]
  refine (List.map_congr_left fun i among => ?_).trans (List.map_id _)
  have here : i.1 = path := by simpa using (List.mem_filter.mp among).2
  rw [← here]
  rfl

theorem mem_imports {ns : List Node} {path : String} {s : Specifier} :
    (path, s) ∈ imports ns ↔ ∃ n ∈ ns, n.Imports path s := by
  simp only [imports, Imports, List.mem_flatMap, List.mem_filterMap, List.mem_map, Prod.mk.injEq]
  constructor
  · rintro ⟨entry, ⟨n, among, imported⟩, _, listed, rfl, rfl⟩
    exact ⟨n, among, entry.2, imported, listed⟩
  · rintro ⟨n, among, specifiers, imported, listed⟩
    exact ⟨(path, specifiers), ⟨n, among, imported⟩, s, listed, rfl, rfl⟩

theorem orderedImports_perm (ns : List Node) : (orderedImports ns).Perm (imports ns) := by
  have known : ∀ i ∈ imports ns, i.1 ∈ (ns.filterMap importedPath?).eraseDups := by
    intro i among
    obtain ⟨n, listed, imports⟩ := mem_imports.mp (show (i.1, i.2) ∈ _ from among)
    exact List.mem_eraseDups.mpr (List.mem_filterMap.mpr ⟨n, listed, imports.importedPath?⟩)
  have grouped := FirstOccurrence.flatMap_filter_perm Prod.fst (FirstOccurrence.nodup_eraseDups _)
    (imports ns) known
  refine List.Perm.trans (List.Perm.flatMap_left _ fun path _ => ?_) grouped
  rw [← map_importsFrom]
  exact (List.filter_append_perm _ _).map _

theorem nodup_orderedImports {ns : List Node}
    (distinct : ((imports ns).map fun i => i.2.name).Nodup) :
    ((orderedImports ns).map fun i => i.2.name).Nodup :=
  (((orderedImports_perm ns).map fun i => i.2.name).nodup_iff).mpr distinct

end Node

theorem Item.importVariable?_of_importedName? {item : Item} (other : item.importedName? = none) :
    item.importVariable? = none := by
  cases item
  case importVariable => cases other
  all_goals rfl

namespace Node

variable (σ : Naming) (isStrict : Bool) (hints : Hints) (ns : List Node)

theorem importVariables_emissions :
    (emissions σ isStrict hints [] ns).top.filterMap (fun e => e.2.importVariable?) = [] := by
  refine List.filterMap_eq_nil_iff.mpr fun e among => ?_
  obtain ⟨l₁, n, l₂, -, opening | ⟨item, listed, rfl⟩⟩ := mem_top_emissions.mp among
  · obtain ⟨path, -, -, rfl⟩ := mem_opening.mp opening
    rfl
  · exact Item.importVariable?_of_importedName? (passesOn_ahead listed).imported

theorem importVariables_inPlace :
    (ns.flatMap fun n => n.inPlace (hints.priorityOf n.span)).filterMap
      (fun e => e.2.importVariable?) = [] := by
  refine List.filterMap_eq_nil_iff.mpr fun e among => ?_
  obtain ⟨n, -, here⟩ := List.mem_flatMap.mp among
  exact Item.importVariable?_of_importedName?
    (Item.passesOn_of_isMade (mem_inPlace here).2.isMade).imported

end Node

namespace Draft.Placed

variable {σ : Naming} {options : Options} {hints : Hints} {ns : List Node} {r : Draft}

theorem importVariables_eq (h : r.Placed σ options hints ns) : r.importVariables =
    OrderedMap.entriesOf (Node.orderedImports ns) (fun i => i.2.name)
      (fun i => i.2.value? σ options.strict (σ.ofPath i.1)) := by
  rw [importVariables, List.filterMap_append, h.body, Node.importVariables_inPlace, List.append_nil,
    h.top, List.filterMap_append, Node.importVariables_emissions,
    List.nil_append, Node.orderedImports, OrderedMap.entriesOf, List.filterMap_flatMap,
    List.filterMap_flatMap]
  refine List.flatMap_congr fun path _ => ?_
  rw [Node.groupEmission, ImportGroup.importVariables_emission, ImportGroup.ordered,
    ImportGroup.specifiers_of, List.filterMap_map]
  rfl

theorem redirects_eq (h : r.Placed σ options hints ns)
    (distinct : ((Node.imports ns).map fun i => i.2.name).Nodup) :
    r.redirects = ⟨OrderedMap.entriesOf (Node.orderedImports ns) (fun i => i.2.name)
      (fun i => i.2.redirect? options.strict (σ.ofPath i.1))⟩ := by
  have entries : ((ns.filterMap Node.importedPath?).eraseDups.flatMap fun path =>
      (Node.groupEmission σ options.strict hints ns path).redirects) =
      OrderedMap.entriesOf (Node.orderedImports ns) (fun i => i.2.name)
        (fun i => i.2.redirect? options.strict (σ.ofPath i.1)) := by
    rw [Node.orderedImports, OrderedMap.entriesOf, List.filterMap_flatMap]
    refine List.flatMap_congr fun path _ => ?_
    rw [Node.groupEmission, ImportGroup.redirects_emission, ImportGroup.ordered,
      ImportGroup.specifiers_of, List.filterMap_map]
    rfl
  rw [h.redirects, entries]
  have keys :=
    (Node.nodup_orderedImports distinct).sublist
      (List.filter_sublist (p := fun i : String × Specifier =>
    (i.2.redirect? options.strict (σ.ofPath i.1)).isSome).map fun i => i.2.name)
  rw [← OrderedMap.keys_entriesOf] at keys
  exact congrArg OrderedMap.mk (OrderedMap.entries_insertAll (t := .empty) keys)

theorem names_importVariables (h : r.Placed σ options hints ns) : r.importVariables.map Prod.fst =
    ((Node.orderedImports ns).filter fun i => !(i.2.isNamespace && options.strict)).map fun i =>
    i.2.name := by
  rw [h.importVariables_eq, OrderedMap.keys_entriesOf]
  simp only [Specifier.isSome_value?]

theorem mem_top_requireBinding (h : r.Placed σ options hints ns) {path : String}
    (required : path ∈ r.requires.entries.map Prod.fst) :
    ∃ priority span, (priority, .requireBinding (σ.ofPath path) path span) ∈ r.top := by
  by_cases passes : path ∈ ns.filterMap Node.passedPath?
  · obtain ⟨l₁, n, l₂, split, passed, absent⟩ := Node.exists_first passes
    exact ⟨_, _, h.mem_top.mpr
      (.inl ⟨l₁, n, l₂, split, .inl (Node.mem_opening.mpr ⟨path, passed, absent, rfl⟩)⟩)⟩
  · obtain ⟨imported, named⟩ := (h.mem_paths.mp required).resolve_left passes
    exact ⟨_, _, h.mem_top.mpr
      (.inr ⟨path, imported, ImportGroup.mem_top_emission.mpr (.inr (.inl ⟨named, passes, rfl⟩))⟩)⟩

section Distinct

variable (h : r.Placed σ options hints ns)
    (distinct : ((Node.imports ns).map fun i => i.2.name).Nodup)
include h distinct

theorem get?_redirects {path : String} {s : Specifier} (imported : (path, s) ∈ Node.imports ns) :
    r.redirects.get? s.name = s.redirect? options.strict (σ.ofPath path) := by
  rw [h.redirects_eq distinct]
  exact OrderedMap.get?_entriesOf (fun i : String × Specifier => i.2.name)
    (fun i => i.2.redirect? options.strict (σ.ofPath i.1)) (Node.nodup_orderedImports distinct)
    ((Node.orderedImports_perm ns).mem_iff.mpr imported)

theorem get?_importVariables {path : String} {s : Specifier}
    (imported : (path, s) ∈ Node.imports ns) :
    (OrderedMap.mk r.importVariables).get? s.name = s.value? σ options.strict (σ.ofPath path) := by
  rw [h.importVariables_eq]
  exact OrderedMap.get?_entriesOf (fun i : String × Specifier => i.2.name)
    (fun i => i.2.value? σ options.strict (σ.ofPath i.1)) (Node.nodup_orderedImports distinct)
    ((Node.orderedImports_perm ns).mem_iff.mpr imported)

theorem standIns_eq : r.standIns =
    ((Node.orderedImports ns).filter fun i => i.2.isNamespace && options.strict).map fun i =>
    i.2.name := by
  rw [standIns, h.redirects_eq distinct, OrderedMap.keys_filter_entriesOf]
  simp only [Specifier.any_redirect?]

end Distinct

end Draft.Placed

namespace Draft

/-- A helper that gives a variable its value has been called for it. -/
theorem Calls.mem_helpers {σ : Naming} {options : Options} {hints : Hints} {ns : List Node}
    {r : Draft} (calls : r.Calls) (placed : r.Placed σ options hints ns) {x : String}
    {value : Imported} (bound : (x, value) ∈ r.importVariables) {call : Helper × String}
    (called : value.call? = some call) : call ∈ r.helpers := by
  rw [importVariables, List.filterMap_append, placed.body, Node.importVariables_inPlace,
    List.append_nil] at bound
  obtain ⟨e, front, given⟩ := List.mem_filterMap.mp bound
  rw [calls.used, List.mem_eraseDups]
  refine List.mem_filterMap.mpr ⟨e, front, ?_⟩
  cases item : e.2 with
  | importVariable =>
    rw [item] at given
    cases given
    exact called
  | _ =>
    rw [item] at given
    cases given

structure BindsImports (ns : List Node) (r : Draft) : Prop where
  once : (r.importVariables.map Prod.fst ++ r.standIns).Perm
    ((Node.imports ns).map fun i => i.2.name)
  bound : ∀ path s, (path, s) ∈ Node.imports ns → ∃ binding, r.requires.get? path = some binding ∧
    (∃ priority span, (priority, .requireBinding binding path span) ∈ r.top) ∧ r.Binds binding s
  /-- The variables come path by path; of a path the namespaces come first. Otherwise they stay in
  order. -/
  ordered : r.importVariables.map Prod.fst = (ns.filterMap Node.importedPath?).eraseDups.flatMap
    fun path =>
    (if r.options.strict then [] else ((Node.importsFrom ns path).filter Specifier.isNamespace).map
      Specifier.name) ++
      ((Node.importsFrom ns path).filter fun s => !s.isNamespace).map Specifier.name

theorem Placed.binds {options : Options} {hints : Hints} {ns : List Node} {r : Draft}
    (h : r.Placed r.naming options hints ns) (calls : r.Calls)
    (distinct : ((Node.imports ns).map fun i => i.2.name).Nodup) {path : String} {s : Specifier}
    (imported : (path, s) ∈ Node.imports ns) : r.Binds (r.naming.ofPath path) s := by
  have redirected := h.get?_redirects distinct imported
  have bound := h.get?_importVariables distinct imported
  have held (value : Imported) (given : s.value? r.naming options.strict
    (r.naming.ofPath path) = some value) :
      (s.name, value) ∈ r.importVariables ∧ ∀ call, value.call? = some call → call ∈ r.helpers := by
    have listed : (s.name, value) ∈ r.importVariables := OrderedMap.mem_of_get? (bound.trans given)
    exact ⟨listed, fun _ called => calls.mem_helpers h listed called⟩
  cases s with
  | default x =>
    obtain ⟨listed, served⟩ := held _ rfl
    exact ⟨redirected, _, served _ rfl, listed⟩
  | named x imported =>
    rw [Binds]
    simp only [Specifier.redirect?] at redirected
    simp only [Specifier.value?] at held
    split
    · next default =>
      rw [if_pos default] at redirected held
      obtain ⟨listed, served⟩ := held _ rfl
      exact ⟨redirected, _, served _ rfl, listed⟩
    · next other =>
      rw [if_neg other] at redirected held
      exact ⟨redirected, (held _ rfl).1⟩
  | «namespace» x =>
    rw [Binds]
    simp only [Specifier.redirect?] at redirected
    simp only [Specifier.value?] at held
    -- In strict mode the module itself is the namespace, and no variable is made for it.
    rw [h.given]
    split
    · next strict =>
      rw [if_pos strict] at redirected
      simp only [Specifier.value?, if_pos strict] at bound
      exact ⟨redirected, OrderedMap.get?_eq_none_iff.mp bound⟩
    · next loose =>
      rw [if_neg loose] at redirected held
      obtain ⟨listed, served⟩ := held _ rfl
      exact ⟨redirected, _, served _ rfl, listed⟩

theorem Placed.bindsImports {options : Options} {hints : Hints} {ns : List Node} {r : Draft}
    (h : r.Placed r.naming options hints ns) (calls : r.Calls)
    (distinct : ((Node.imports ns).map fun i => i.2.name).Nodup) : r.BindsImports ns := by
  constructor
  case once =>
    rw [h.names_importVariables, h.standIns_eq distinct, ← List.map_append]
    apply List.Perm.map
    refine List.Perm.trans ?_ (Node.orderedImports_perm ns)
    exact List.perm_append_comm.trans (List.filter_append_perm _ _)
  case bound =>
    intro path s imported
    obtain ⟨n, among, imports⟩ := Node.mem_imports.mp imported
    have required := h.mem_paths_iff.mpr ⟨n, among, .inr (Node.namesImports_iff.mpr ⟨s, imports⟩)⟩
    obtain ⟨binding, found⟩ :=
      Option.ne_none_iff_exists'.mp fun none => OrderedMap.get?_eq_none_iff.mp none required
    have name : r.naming.ofPath path = binding := by simp [naming, found]
    exact ⟨binding, found, name ▸ h.mem_top_requireBinding required, name ▸ h.binds calls
      distinct imported⟩
  case ordered =>
    rw [h.names_importVariables, h.given, Node.orderedImports, List.filter_flatMap,
      List.map_flatMap]
    refine List.flatMap_congr fun path _ => ?_
    rw [List.filter_map, List.map_map, List.filter_append, List.filter_filter, List.filter_filter,
      List.map_append]
    cases options.strict with
    | true => simp [Function.comp_def]
    | false => simp [Function.comp_def]

theorem exists_scan_of_imports (hints : Hints) {ns : List Node} (only : ∀ n ∈ ns, n.isImport = true)
    (r : Draft) :
    ∃ r', r.scan hints ns = .ok r' := by
  induction ns generalizing r with
  | nil => exact ⟨r, rfl⟩
  | cons n ns ih =>
    obtain ⟨here, later⟩ := List.forall_mem_cons.mp only
    obtain ⟨f, s, ps⟩ := n
    cases f
    case importDecl isType isNamed path => exact ih later _
    all_goals cases here

/-- Lowering imports with distinct names loses none of them and binds none twice: each has a
variable or, in strict mode, a namespace stands for the variable of its module. What it is bound to
comes from the variable of the path that it was imported from. Import declarations alone never fail
to be lowered. -/
theorem imports_bound_once (options : Options) (hints : Hints) (taken : TakenNames) (ns : List Node)
    (distinct : ((Node.imports ns).map fun i => i.2.name).Nodup) :
    ((∀ n ∈ ns, n.isImport = true) → ∃ r, (Draft.start options taken).scan hints ns = .ok r) ∧
      ∀ r, (Draft.start options taken).scan hints ns = .ok r → r.lowerImports.BindsImports ns := by
  constructor
  · intro only
    exact exists_scan_of_imports hints only _
  · intro r scanned
    have calls := ((Calls.start options taken).scan scanned).lowerImports
    exact (Draft.placed scanned).bindsImports calls distinct

section Example

/-- `import a, { default as b, c, type T } from "m"; import "s"; import { "x y" as d } from "k"; `
and `import * as n from "m";` -/
def mixingStatements : List Node :=
  let name (x : String) := Node.made (.binder x none) []
  [.made (.importDecl false true "m") [.made .importDefault [name "a"],
    .made (.importNamed false) [Made.word "default", name "b"], .made (.importNamed false)
    [Made.word "c", name "c"], .made (.importNamed true) [Made.word "T", name "T"], .absent],
   .made (.importDecl false false "s") [.absent],
   .made (.importDecl false true "k") [.made (.importNamed false) [Made.string "x y", name "d"],
   .absent],
   .made (.importDecl false true "m") [.made .importNamespace [name "n"], .absent]]

theorem imports_bound_once_mixing :
    Node.imports mixingStatements = [("m", .default "a"), ("m", .named "b" "default"),
      ("m", .named "c" "c"), ("k", .named "d" "x y"), ("m", .namespace "n")] ∧
    ∃ r, (Draft.start .default ⟨[]⟩).scan .none mixingStatements = .ok r ∧
      r.lowerImports.BindsImports mixingStatements := by
  have bound := imports_bound_once .default .none ⟨[]⟩ mixingStatements (by decide +kernel)
  obtain ⟨r, scanned⟩ := bound.1 (by decide +kernel)
  exact ⟨by decide +kernel, r, scanned, bound.2 r scanned⟩

end Example

end Draft

end ModuleLowering
