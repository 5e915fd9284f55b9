import ModuleLowering.Proofs.Lower.LoweredItem

/-!
The order in which a lowered module loads other modules and reads from them.
-/

set_option autoImplicit false

namespace ModuleLowering

def Item.readPriority (hints : Hints) (ns : List Node) (path : String) (item : Item) : Priority :=
  match item.importedName? with
  | some _ => Node.importPriority hints ns path
  | none => Priority.ordinary

namespace Draft

section
variable {base : TakenNames} {own bound : String → Prop} {r : Draft}
    (sound : r.Sound base own bound)
include sound

theorem Sound.required?_ne {before after : List (Priority × Item)} {first : Priority × Item}
    (split : r.top = before ++ first :: after) {path b : String}
    (required : first.2.required? = some (path, b)) {e : Priority × Item}
    (among : e ∈ before ++ after) (other : String) : e.2.required? ≠ some (path, other) := by
  intro again
  have moved : (r.requires.entries.map Prod.fst).Perm
      (path :: ((before ++ after).filterMap (·.2.required?)).map Prod.fst) := by
    have middle : r.top.Perm (first :: (before ++ after)) := split ▸ List.perm_middle
    have perm := middle.filterMap (·.2.required?)
    simp only [sound.required, List.filterMap_cons, required] at perm
    exact perm.map Prod.fst
  refine (List.nodup_cons.mp (moved.nodup_iff.mp sound.paths)).1
    (List.mem_map.mpr ⟨(path, other), ?_, rfl⟩)
  exact List.mem_filterMap.mpr ⟨e, among, again⟩

variable {options : Options} {hints : Hints} {ns : List Node}
    (placed : r.Placed r.naming options hints ns)
include placed

theorem Placed.priority_of_reads {e : Priority × Item} (front : e ∈ r.top) {path : String}
    (listed : path ∈ r.requires.entries.map Prod.fst)
    (reads : e.2.module? = some (r.naming.ofPath path)) :
    e.1 = e.2.readPriority hints ns path := by
  rcases placed.mem_top_module? front reads with
    ⟨n, among, other, passed, -, priority, ahead⟩
      | ⟨other, imported, same, priority, s, named, value, -, eq⟩
  · rw [priority, Item.readPriority, (Node.passesOn_ahead ahead).imported]
  · have known := placed.mem_paths.mpr (.inr ⟨imported, List.ne_nil_of_mem named⟩)
    rw [sound.apart _ listed _ known same, priority, eq]
    rfl

theorem Placed.exists_queue_split {d : Priority × Item} (queued : d ∈ r.queue) {path b : String}
    (requires : d.2.required? = some (path, b)) : path ∈ r.requires.entries.map Prod.fst ∧
      b = r.naming.ofPath path ∧
      d.1 = Node.requirePriority hints ns path ∧ ∃ before after, r.queue = before ++ d ::
        after ∧ d ∉ after ∧
        ∀ e ∈ before, e.2.module? ≠ some b := by
  have required : d ∈ r.top := (placed.mem_top_or_passesOn queued).resolve_right fun passes => by
    rw [required?_of_loaded? passes.loaded] at requires
    cases requires
  have entry : (path, b) ∈ r.requires.entries := by
    rw [← sound.required]
    exact List.mem_filterMap.mpr ⟨d, required, requires⟩
  obtain ⟨listed, rfl⟩ := sound.mem_requires.mp entry
  -- What comes in before and behind the front has nothing to do with other modules.
  obtain ⟨before, span, after, split, silent⟩ := placed.exists_split sound.apart listed
  have once {e : Priority × Item} (among : e ∈ before ++ after) :=
    sound.required?_ne split rfl among (r.naming.ofPath path)
  obtain rfl : d = (Node.requirePriority hints ns path, .requireBinding (r.naming.ofPath path)
    path span) := by
    rw [split, List.mem_append, List.mem_cons] at required
    rcases required with early | here | late
    · exact absurd requires (once (List.mem_append_left _ early))
    · exact here
    · exact absurd requires (once (List.mem_append_right _ late))
  refine ⟨listed, rfl, rfl, r.header ++ before, after ++ (r.body ++ r.footer), ?_, fun among => ?_,
    fun e among reads => ?_⟩
  · simp only [queue, split, List.append_assoc, List.cons_append]
  · simp only [List.mem_append] at among
    rcases among with late | body | footer
    · exact once (List.mem_append_right _ late) requires
    · exact absurd (sound.body _ body).required (by rw [requires]; exact Option.some_ne_none _)
    · exact absurd (passesOn_footer footer).loaded (Option.some_ne_none _)
  · rcases List.mem_append.mp among with header | early
    · rw [(passesOn_header header).source] at reads
      cases reads
    · exact silent e early reads

theorem Placed.lt_iff {i j : Nat} {item : Item} {b path : String} {span : Option Span}
    (reading : r.items[i]? = some item) (reads : item.module? = some b)
    (requiring : r.items[j]? = some (.requireBinding b path span)) :
    j < i ↔ item.readPriority hints ns path ≤ Node.requirePriority hints ns path := by
  obtain ⟨e, atRead, rfl⟩ := (getElem?_items reading).resolve_right fun ⟨_, _, eq⟩ => by
    rw [eq] at reads
    cases reads
  obtain ⟨d, atRequire, eq⟩ := (getElem?_items requiring).resolve_right fun ⟨_, _, eq⟩ => by
    cases eq
  have queued {k : Nat} {e : Priority × Item} (found : (arrange r.queue)[k]? = some e) :
      e ∈ r.queue :=
    (arrange_perm _).mem_iff.mp (List.mem_of_getElem? found)
  have front : e ∈ r.top :=
    (placed.mem_top_or_passesOn (queued atRead)).resolve_right fun passes => by
    rw [passes.source] at reads
    cases reads
  obtain ⟨listed, rfl, priority, before, after, split, notAfter, silent⟩ :=
    placed.exists_queue_split sound (queued atRequire)
      (show d.2.required? = some (path, b) by rw [eq]; rfl)
  rw [split] at atRead atRequire
  have other : e ≠ d := by
    rintro rfl
    rw [eq] at reads
    cases reads
  rw [← placed.priority_of_reads sound front listed reads, ← priority,
    arrange_lt_iff notAfter (fun early => silent e early reads) other atRequire atRead]

theorem Placed.exists_requireBinding {i : Nat} {item : Item} {b : String}
    (reading : r.items[i]? = some item) (reads : item.module? = some b) :
      ∃ (j : Nat) (path : String) (span : Option Span), r.items[j]? =
        some (.requireBinding b path span) := by
  obtain ⟨e, front, rfl⟩ := placed.mem_top_of_module? (List.mem_of_getElem? reading) reads
  obtain ⟨path, listed, rfl⟩ := placed.mem_paths_of_module? front reads
  obtain ⟨span, required⟩ := sound.exists_requireBinding (sound.mem_requires.mpr ⟨listed, rfl⟩)
  obtain ⟨j, requiring⟩ := List.mem_iff_getElem?.mp required
  exact ⟨j, path, span, requiring⟩

end

end Draft

namespace Module

/-- A lowered module reads from another through a variable, and the statement that requires the
module into it comes first just if its priority is no less. That is the priority of the first
declaration that passes on exports of the module, whatever the imports of the module ask for. -/
theorem require_before_read_iff (s : Original) (wellFormed : s.program.isWellFormed = true)
    (options : Options) (hints : Hints) (run : s.Lowering options hints) :
    let m := s.analysed
    Item.WritesOut (m.loweredBindings options hints) (m.loweredItems options hints)
      run.lowered.statements ∧
      ∀ (i : Nat) (item : Item) (b : String), (m.loweredItems options hints)[i]? = some item →
        item.module? = some b →
        (∃ (j : Nat) (path : String) (span : Option Span),
          (m.loweredItems options hints)[j]? = some (.requireBinding b path span)) ∧
        ∀ (j : Nat) (path : String) (span : Option Span),
          (m.loweredItems options hints)[j]? = some (.requireBinding b path span) →
          (j < i ↔ item.readPriority hints m.statements path ≤ Node.requirePriority hints
          m.statements path) := by
  intro m
  have consistent : m.Consistent := Original.consistent wellFormed
  obtain ⟨outcome, lowered, success⟩ := run
  refine ⟨writesOut consistent.program success, fun i item b reading reads => ?_⟩
  rcases lower_cases success with ⟨plain, -⟩ | ⟨r, final, -, drafted, -⟩
  · rw [loweredItems_of_none plain] at reading
    obtain ⟨n, -, rfl⟩ := List.mem_map.mp (List.mem_of_getElem? reading)
    cases reads
  · rw [loweredItems_of_some final] at reading ⊢
    have sound := consistent.sound drafted
    have placed := placed_of_draft drafted
    refine ⟨placed.exists_requireBinding sound reading reads, fun j path span requiring => ?_⟩
    have order := placed.lt_iff sound reading reads requiring
    rwa [Item.readPriority, importPriority_renamed, requirePriority_renamed] at order

/-- `export { a } from "m"; import { b } from "m"; b();` -/
def importingBehind : Original :=
  ⟨true, none, [], none,
    [.mk (.exportFrom false "m") (some ⟨0, 22⟩)
     [.made (.exportSpecifier false) [Made.word "a", Made.word "a"], .absent],
      .mk (.importDecl false true "m") (some ⟨23, 45⟩)
     [.made (.importNamed false) [Made.word "b", .made (.binder "b" none) []], .absent],
     .mk .expression (some ⟨46, 50⟩) [Made.call (Made.ident "b") []]]⟩

def importFirst : Hints := .insert .none ⟨23, 45⟩ 5

theorem exists_getElem?_items {r : Draft} {p : Item → Bool}
    (some : r.top.any (fun e => p e.2) = true) :
    ∃ (i : Nat) (item : Item), r.items[i]? = .some item ∧ p item = true := by
  obtain ⟨e, front, holds⟩ := List.any_eq_true.mp some
  obtain ⟨i, found⟩ := List.mem_iff_getElem?.mp (Draft.mem_items_of_mem_top front)
  exact ⟨i, e.2, found, holds⟩

/-- The variable `b` is set before the module is required that it is set from. -/
theorem require_before_read_iff_importingBehind : ∃ outcome lowered,
    (Module.lower .default importFirst).run importingBehind.analysed = .ok outcome lowered ∧
      ∃ (i j : Nat) (item : Item) (span : Option Span), item.importedName? = some "b" ∧
        item.module? = some "_m" ∧
        lowered.statements[i]? = some item.toNode ∧
        lowered.statements[j]? = some (Item.requireBinding "_m" "m" span).toNode ∧ i < j := by
  obtain ⟨r, drafted, computed⟩ := importingBehind.analysed.exists_draft .default importFirst
    (fun r => r.top.any (fun e => e.2.importedName? == some "b" && e.2.module? == some "_m") &&
      r.top.any (fun e => e.2.required? == some ("m", "_m"))) (by decide +kernel)
  have least : ¬ Node.importPriority importFirst importingBehind.analysed.statements "m" ≤
      Node.requirePriority importFirst importingBehind.analysed.statements "m" := by decide +kernel
  obtain ⟨final, success⟩ := lower_of_draft (by decide +kernel) drafted
  obtain ⟨written, order⟩ :=
    require_before_read_iff importingBehind (by decide) .default importFirst ⟨_, _, success⟩
  refine ⟨_, _, success, ?_⟩
  rw [loweredItems_of_some final] at written order
  obtain ⟨some, required⟩ := Bool.and_eq_true_iff.mp computed
  obtain ⟨i, item, reading, holds⟩ := exists_getElem?_items (p := fun item =>
    item.importedName? == .some "b" && item.module? == .some "_m") some
  obtain ⟨j, item', requiring, holds'⟩ := exists_getElem?_items
    (p := fun item => item.required? == .some ("m", "_m")) required
  obtain ⟨name, reads⟩ : item.importedName? = .some "b" ∧ item.module? = .some "_m" := by
    simpa using holds
  obtain ⟨span, rfl⟩ := Draft.eq_requireBinding (eq_of_beq holds')
  have made : item.isMade = true := by
    cases item <;> first | rfl | cases name
  -- The import has the greater priority, so that it does not wait for the module.
  have notBefore : ¬ j < i := by
    rw [(order i item "_m" reading reads).2 j "m" span requiring, Item.readPriority, name]
    exact least
  have other : i ≠ j := by
    rintro rfl
    rw [reading] at requiring
    cases requiring
    cases reads
  exact ⟨i, j, item, span, name, reads, written.made i item reading made, written.made j _ requiring
    rfl, by omega⟩

end Module

namespace Node

def dependency? (n : Node) : Option Dependency :=
  match n.passedPath? with
  | some path => some ⟨path, true⟩
  | none => n.importedPath?.map (⟨·, false⟩)

theorem importedPath?_of_passedPath? {n : Node} {path : String}
    (passed : n.passedPath? = some path) :
    n.importedPath? = none := by
  unfold passedPath? at passed
  split at passed
  · rfl
  · rfl
  · cases passed

theorem passed_dependencies (ns : List Node) :
    Dependency.passed (ns.filterMap dependency?) = ns.filterMap passedPath? := by
  induction ns with
  | nil => rfl
  | cons n ns ih =>
    rw [List.filterMap_cons, List.filterMap_cons, dependency?]
    cases n.passedPath? with
    | some path => exact congrArg (path :: ·) ih
    | none =>
      cases n.importedPath? with
      | none => exact ih
      | some path => exact ih

theorem imported_dependencies (ns : List Node) :
    Dependency.imported (ns.filterMap dependency?) = ns.filterMap importedPath? := by
  induction ns with
  | nil => rfl
  | cons n ns ih =>
    rw [List.filterMap_cons, List.filterMap_cons, dependency?]
    cases passed : n.passedPath? with
    | some path =>
      rw [importedPath?_of_passedPath? passed]
      exact ih
    | none =>
      cases n.importedPath? with
      | none => exact ih
      | some path => exact congrArg (path :: ·) ih

theorem IsPlain.dependency? {n : Node} (h : n.IsPlain) : n.dependency? = none := by
  rw [Node.dependency?, h.passed, importedPath?, h.imported]
  rfl

theorem loaded_emissions (σ : Naming) (isStrict : Bool) (hints : Hints) (before ns : List Node) :
    (emissions σ isStrict hints before ns).top.filterMap (·.2.loaded?) =
      (emissions σ isStrict hints before ns).paths := by
  induction ns generalizing before with
  | nil => rfl
  | cons n ns ih =>
    have opening : (n.opening σ hints before).top.filterMap (·.2.loaded?) =
      (n.opening σ hints before).paths := by
      unfold opening Emission.required
      split
      · split <;> rfl
      · rfl
    have ahead : ((n.ahead σ isStrict).map (Priority.ordinary, ·)).filterMap
      (·.2.loaded?) = [] := by
      rw [List.filterMap_map]
      exact List.filterMap_eq_nil_iff.mpr fun item listed => (passesOn_ahead listed).loaded
    simp only [emissions, emission, Emission.top_append, Emission.paths_append,
      List.filterMap_append, opening, ahead, ih, List.append_nil]

end Node

theorem ImportGroup.loaded_emission (σ : Naming) (isStrict : Bool) (known : List String)
    (path : String) (group : ImportGroup) : (group.emission σ isStrict known path).top.filterMap
      (·.2.loaded?) =
      if group.specifiers.isEmpty ∨ path ∉ known then [path] else [] := by
  have bound :
      (Emission.flatMap group.ordered (Specifier.emission σ isStrict (σ.ofPath path)
        group)).top.filterMap (·.2.loaded?) = [] := by
    refine List.filterMap_eq_nil_iff.mpr fun e among => ?_
    obtain ⟨s, -, here⟩ := List.mem_flatMap.mp among
    obtain ⟨value, -, rfl⟩ := List.mem_map.mp here
    rfl
  unfold emission Emission.required
  by_cases bare : group.specifiers.isEmpty = true
  · simp [bare, Item.loaded?]
  · by_cases old : path ∈ known
    · simpa [bare, old] using bound
    · simpa [bare, old, Item.loaded?] using bound

/-- Without hints, the modules are loaded that exports are passed on from, and then those
imported. -/
theorem Draft.Placed.loaded_items {r : Draft} {σ : Naming} {options : Options} {ns : List Node}
    (h : r.Placed σ options .none ns) : (r.items.filterMap Item.loaded?).eraseDups =
      (ns.filterMap Node.passedPath? ++ ns.filterMap Node.importedPath?).eraseDups := by
  let f (path : String) : List String :=
    (Node.groupEmission σ options.strict .none ns path).top.filterMap (·.2.loaded?)
  have loads (path : String) : f path =
      if (ImportGroup.of .none ns path).specifiers.isEmpty ∨ path ∉ ns.filterMap Node.passedPath?
      then [path] else [] :=
    ImportGroup.loaded_emission ..
  have split : r.top.filterMap (·.2.loaded?) =
      (ns.filterMap Node.passedPath?).eraseDups ++
      (ns.filterMap Node.importedPath?).eraseDups.flatMap f := by
    rw [h.top, List.filterMap_append, Node.loaded_emissions, List.filterMap_flatMap]
    congr 1
    exact Node.paths_emissions σ options.strict .none [] ns
  rw [h.items_eq, h.filterMap_unarranged fun _ passes => passes.loaded, split]
  -- The imports of a path load it unless it has a variable already, so nothing is left out that is
  -- new.
  refine FirstOccurrence.eraseDups_append_flatMap (fun path => ?_) (fun path new => ?_) _
  · rw [loads]
    split
    · exact List.Subset.refl _
    · exact List.nil_subset _
  · rw [loads, if_pos (.inr new)]

namespace Module

def dependencies (m : Module) : List Dependency := m.statements.filterMap Node.dependency?

/-- Without hints, a lowered module loads first what it passes on exports from, and then what it
imports. That is the order in which its declarations name the modules just if no import is
overtaken. -/
theorem load_order_eq_iff (s : Original) (options : Options) (run : s.Lowering options .none) :
    let m := s.analysed
    Item.WritesOut (m.loweredBindings options .none) (m.loweredItems options .none)
      run.lowered.statements ∧
      ((m.loweredItems options .none).filterMap Item.loaded?).eraseDups =
        (Dependency.passed m.dependencies ++ Dependency.imported m.dependencies).eraseDups ∧
      (((m.loweredItems options .none).filterMap Item.loaded?).eraseDups =
        (m.dependencies.map Dependency.path).eraseDups ↔
        ¬ Dependency.Overtakes m.dependencies) := by
  intro m
  obtain ⟨outcome, lowered, success⟩ := run
  have order : ((m.loweredItems options .none).filterMap Item.loaded?).eraseDups =
      (Dependency.passed m.dependencies ++ Dependency.imported m.dependencies).eraseDups := by
    rcases lower_cases success with ⟨none, plain, -⟩ | ⟨r, final, -, drafted, -⟩
    · -- Without module syntax there are no dependencies, and no statement loads anything.
      have silent : m.dependencies = [] := List.filterMap_eq_nil_iff.mpr fun n among =>
        ((m.isPlain_of_hasModuleSyntax plain).1 n among).dependency?
      rw [loweredItems_of_none none, silent, List.filterMap_map]
      exact congrArg List.eraseDups (List.filterMap_eq_nil_iff.mpr fun n _ => rfl)
    · rw [loweredItems_of_some final, (placed_of_draft drafted).loaded_items, dependencies,
        m.filterMap_renamed Node.passedPath?_rename, m.filterMap_renamed Node.importedPath?_rename,
        Node.passed_dependencies, Node.imported_dependencies]
  refine ⟨writesOut ⟨_, _, rfl⟩ success, order, ?_⟩
  rw [order]
  exact Dependency.eraseDups_eq_iff

/-- `import "x"; export { b } from "y";` -/
def passingBehind : Original :=
  ⟨true, none, [], none,
    [.made (.importDecl false false "x") [.absent],
     .made (.exportFrom false "y") [.made (.exportSpecifier false) [Made.word "b", Made.word "b"],
     .absent]]⟩

/-- The import comes first, but `y` is loaded before `x`. -/
theorem load_order_eq_iff_passingBehind : ∃ outcome lowered,
    (Module.lower .default .none).run passingBehind.analysed = .ok outcome lowered ∧
      passingBehind.analysed.dependencies = [⟨"x", false⟩, ⟨"y", true⟩] ∧
        Dependency.Overtakes passingBehind.analysed.dependencies ∧
      ((passingBehind.analysed.loweredItems .default .none).filterMap Item.loaded?).eraseDups =
      ["y", "x"] := by
  have named : passingBehind.analysed.dependencies = [⟨"x", false⟩, ⟨"y", true⟩] := by
    decide +kernel
  obtain ⟨-, order, -⟩ := load_order_eq_iff passingBehind .default
    ⟨_, _, (rfl : (Module.lower .default .none).run passingBehind.analysed = _)⟩
  refine ⟨_, _, rfl, named, ?_, ?_⟩
  · rw [named]
    exact ⟨[], [], [], "y", "x", rfl, by decide, List.not_mem_nil, List.not_mem_nil⟩
  · rw [order, named]
    decide

end Module

end ModuleLowering
