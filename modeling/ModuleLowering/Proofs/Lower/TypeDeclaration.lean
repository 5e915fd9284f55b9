import ModuleLowering.Proofs.Lower.LoadOrder

/-!
Declarations that name other modules for the sake of types. A lowered module loads those others
whose values it is to have, and besides them those of which it passes on nothing but types.
-/

set_option autoImplicit false

namespace ModuleLowering

structure SourceClause where
  path : String
  isType : Bool
  isExport : Bool
  /-- Of each name that it lists, whether that is the name of a value. -/
  values : List Bool
  deriving DecidableEq

namespace SourceClause

variable (c : SourceClause)

def listsTypes : Bool := !c.values.isEmpty && !c.values.contains true

def carriesValues : Bool := !c.isType && !c.listsTypes

/-- It passes on the types that it lists, but does not say of the list as a whole that they are
types. -/
def passesTypes : Bool := !c.isType && (c.isExport && c.listsTypes)

end SourceClause

namespace Node

def importsValue : Node → Bool
  | .mk .importDefault _ [_] | .mk .importNamespace _ [_] => true
  | .mk (.importNamed isType) _ [_, _] => !isType
  | _ => false

def exportsValue : Node → Bool
  | .mk (.exportSpecifier isType) _ [_, _] => !isType
  | _ => false

def sourceClause? : Node → Option SourceClause
  | .mk (.importDecl isType _ path) _ parts =>
    some ⟨path, isType, false, parts.dropLast.map importsValue⟩
  | .mk (.exportFrom isType path) _ parts =>
    some ⟨path, isType, true, parts.dropLast.map exportsValue⟩
  | .mk (.exportAll isType path) _ (_ :: _) => some ⟨path, isType, true, []⟩
  | _ => none

theorem isSome_specifier? (n : Node) : n.specifier?.isSome = n.importsValue := by
  fun_cases specifier? n with
  | case1 | case2 | case3 => rfl
  | case4 n notDefault notNamespace notNamed =>
    fun_cases importsValue n with
    | case1 s b => exact absurd rfl (notDefault s b)
    | case2 s b => exact absurd rfl (notNamespace s b)
    | case3 isType s imported b =>
      cases isType with
      | true => rfl
      | false => exact absurd rfl (notNamed s imported b)
    | case4 => rfl

theorem isEmpty_filterMap_specifier? (ns : List Node) :
    (ns.filterMap specifier?).isEmpty = !(ns.map importsValue).contains true := by
  have same (n : Node) : n.specifier? = none ↔ n.importsValue = false := by
    rw [← isSome_specifier?, Option.isSome_eq_false_iff, Option.isNone_iff_eq_none]
  rw [Bool.eq_iff_iff, List.isEmpty_iff, List.filterMap_eq_nil_iff]
  simp [same]

theorem importedPath?_eq_some_iff {n : Node} {path : String} : n.importedPath? = some path ↔
    ∃ c, n.sourceClause? = some c ∧ c.path = path ∧ c.isExport = false ∧
    c.carriesValues = true := by
  obtain ⟨f, s, parts⟩ := n
  cases f
  case importDecl isType hasClause other =>
    have listed := isEmpty_filterMap_specifier? parts.dropLast
    cases isType with
    | true => simp [importedPath?, imported?, sourceClause?, SourceClause.carriesValues]
    | false =>
      simp only [importedPath?, imported?, sourceClause?, SourceClause.carriesValues,
        SourceClause.listsTypes, listed, List.isEmpty_map, Option.some.injEq, exists_eq_left',
        Bool.not_false, Bool.true_and, true_and]
      cases !parts.dropLast.isEmpty && !(parts.dropLast.map importsValue).contains true <;> simp
  case exportAll isType other => cases parts <;> simp [importedPath?, imported?, sourceClause?]
  all_goals simp [importedPath?, imported?, sourceClause?]

/-- What passes on exports loads their module, even if it lists nothing but types. -/
theorem passedPath?_eq_some_iff {n : Node} {path : String} : n.passedPath? = some path ↔
    ∃ c, n.sourceClause? = some c ∧ c.path = path ∧ c.isExport = true ∧ c.isType = false := by
  obtain ⟨f, s, parts⟩ := n
  cases f
  case exportFrom isType other => cases isType <;> simp [passedPath?, sourceClause?]
  case exportAll isType other => cases isType <;> cases parts <;> simp [passedPath?, sourceClause?]
  all_goals simp [passedPath?, sourceClause?]

theorem loads_iff {n : Node} {path : String} :
    n.passedPath? = some path ∨ n.importedPath? = some path ↔
    ∃ c, n.sourceClause? = some c ∧ c.path = path ∧
      (c.carriesValues = true ∨ c.passesTypes = true) := by
  rw [passedPath?_eq_some_iff, importedPath?_eq_some_iff, ← exists_or]
  refine exists_congr fun c => ?_
  rw [← and_or_left, ← and_or_left]
  refine and_congr_right fun _ => and_congr_right fun _ => ?_
  unfold SourceClause.carriesValues SourceClause.passesTypes
  cases c.isType <;> cases c.isExport <;> cases c.listsTypes <;> simp

end Node

theorem Draft.Placed.mem_loaded_items {r : Draft} {σ : Naming} {options : Options} {hints : Hints}
    {ns : List Node} (h : r.Placed σ options hints ns) {path : String} :
      path ∈ r.items.filterMap Item.loaded? ↔
      path ∈ ns.filterMap Node.passedPath? ∨ path ∈ ns.filterMap Node.importedPath? := by
  have front : (Node.emissions σ options.strict hints [] ns).top.filterMap (·.2.loaded?) =
      (ns.filterMap Node.passedPath?).eraseDups :=
    (Node.loaded_emissions ..).trans (Node.paths_emissions σ options.strict hints [] ns)
  rw [(r.items_perm.filterMap Item.loaded?).mem_iff, h.filterMap_unarranged fun _ passes =>
    passes.loaded, h.top, List.filterMap_append, front, List.mem_append, List.mem_eraseDups,
      List.filterMap_flatMap, List.mem_flatMap]
  constructor
  · rintro (passed | ⟨other, imported, loads⟩)
    · exact .inl passed
    · rw [Node.groupEmission, ImportGroup.loaded_emission] at loads
      split at loads
      · rw [List.mem_singleton.mp loads]
        exact .inr (List.mem_eraseDups.mp imported)
      · cases loads
  · rintro (passed | imported)
    · exact .inl passed
    · -- A path that has a variable already is not loaded once more.
      by_cases passed : path ∈ ns.filterMap Node.passedPath?
      · exact .inl passed
      · refine .inr ⟨path, List.mem_eraseDups.mpr imported, ?_⟩
        rw [Node.groupEmission, ImportGroup.loaded_emission, if_pos (.inr passed)]
        exact List.mem_singleton_self path

namespace Module

variable {m : Module} {options : Options} {hints : Hints}

def sourceClauses (m : Module) : List SourceClause := m.statements.filterMap Node.sourceClause?

theorem exists_mem_sourceClauses {p : SourceClause → Prop} :
    (∃ c ∈ m.sourceClauses, p c) ↔ ∃ n ∈ m.statements, ∃ c, n.sourceClause? = some c ∧ p c := by
  unfold sourceClauses
  simp only [List.mem_filterMap]
  constructor
  · rintro ⟨c, ⟨n, among, read⟩, holds⟩
    exact ⟨n, among, c, read, holds⟩
  · rintro ⟨n, among, c, read, holds⟩
    exact ⟨c, ⟨n, among, read⟩, holds⟩

theorem mem_loaded_iff {outcome : Outcome} {lowered : Module}
    (success : (lower options hints).run m = .ok outcome lowered) {path : String} :
      path ∈ (m.loweredItems options hints).filterMap Item.loaded? ↔
      ∃ n ∈ m.statements, n.passedPath? = some path ∨ n.importedPath? = some path := by
  rcases lower_cases success with ⟨none, plain, -⟩ | ⟨r, final, -, drafted, -⟩
  · rw [loweredItems_of_none none, List.filterMap_map]
    refine ⟨fun loads => ?_, ?_⟩
    · obtain ⟨n, -, read⟩ := List.mem_filterMap.mp loads
      cases read
    · rintro ⟨n, among, names⟩
      have nothing := (m.isPlain_of_hasModuleSyntax plain).1 n among
      rw [nothing.passed, Node.importedPath?, nothing.imported] at names
      rcases names with passed | imported
      · cases passed
      · cases imported
  · rw [loweredItems_of_some final, (placed_of_draft drafted).mem_loaded_items,
      m.filterMap_renamed Node.passedPath?_rename, m.filterMap_renamed Node.importedPath?_rename]
    simp only [List.mem_filterMap, ← exists_or, ← and_or_left]

/-- A lowered module loads a module just if one of its declarations is to have values of it, or
passes on types of it that are marked one by one. Declarations that import types only, and those
that are for types as a whole, load nothing. So nothing is loaded for types alone just if every
module of which listed types are passed on is needed for values too. -/
theorem loads_for_values_iff (s : Original) (options : Options) (hints : Hints)
    (run : s.Lowering options hints) :
    let m := s.analysed
    Item.WritesOut (m.loweredBindings options hints) (m.loweredItems options hints)
      run.lowered.statements ∧
      (∀ path, path ∈ (m.loweredItems options hints).filterMap Item.loaded? ↔
        ∃ c ∈ m.sourceClauses, c.path = path ∧ (c.carriesValues = true ∨ c.passesTypes = true)) ∧
      ((∀ path, path ∈ (m.loweredItems options hints).filterMap Item.loaded? ↔
          ∃ c ∈ m.sourceClauses, c.path = path ∧ c.carriesValues = true) ↔
        ∀ c ∈ m.sourceClauses, c.passesTypes = true → ∃ c' ∈ m.sourceClauses, c'.path = c.path ∧
        c'.carriesValues = true) := by
  intro m
  obtain ⟨outcome, lowered, success⟩ := run
  have loads (path : String) : path ∈ (m.loweredItems options hints).filterMap Item.loaded? ↔
      ∃ c ∈ m.sourceClauses, c.path = path ∧ (c.carriesValues = true ∨ c.passesTypes = true) := by
    rw [mem_loaded_iff success, exists_mem_sourceClauses]
    exact exists_congr fun n => and_congr_right fun _ => Node.loads_iff
  refine ⟨writesOut ⟨_, _, rfl⟩ success, loads, fun only c among passes => ?_,
    fun others path => ?_⟩
  · exact (only c.path).mp ((loads c.path).mpr ⟨c, among, rfl, .inr passes⟩)
  · rw [loads]
    constructor
    · rintro ⟨c, among, rfl, carries | passes⟩
      · exact ⟨c, among, rfl, carries⟩
      · exact others c among passes
    · rintro ⟨c, among, same, carries⟩
      exact ⟨c, among, same, .inl carries⟩

/-- `import { type A } from "a"; import type B from "b"; export type { C } from "c"; export { type D
} from "d";`, and `import { type E } from "e"; export { e } from "e";` -/
def namingTypesStatements : List Node :=
  let name (x : String) := Node.made (.binder x none) []
  [.made (.importDecl false true "a") [.made (.importNamed true) [Made.word "A", name "A"],
    .absent],
   .made (.importDecl true true "b") [.made .importDefault [name "B"], .absent],
   .made (.exportFrom true "c") [.made (.exportSpecifier false) [Made.word "C", Made.word "C"],
   .absent],
   .made (.exportFrom false "d") [.made (.exportSpecifier true) [Made.word "D", Made.word "D"],
   .absent],
   .made (.importDecl false true "e") [.made (.importNamed true) [Made.word "E", name "E"],
   .absent],
   .made (.exportFrom false "e") [.made (.exportSpecifier false) [Made.word "e", Made.word "e"],
   .absent]]

def namingTypes : Original := ⟨true, none, [], none, namingTypesStatements⟩

/-- Of the modules that are named for types alone, `d` is loaded, whose types are passed on one by
one. -/
theorem loads_for_values_iff_namingTypes : ∃ outcome lowered,
    (Module.lower .default .none).run namingTypes.analysed = .ok outcome lowered ∧
      (∀ path, path ∈ (namingTypes.analysed.loweredItems .default .none).filterMap Item.loaded? ↔
        path = "d" ∨ path = "e") ∧
      ¬ ∃ c ∈ namingTypes.analysed.sourceClauses, c.path = "d" ∧ c.carriesValues = true := by
  obtain ⟨r, drafted, -⟩ :=
    namingTypes.analysed.exists_draft .default .none (fun _ => true) (by decide +kernel)
  obtain ⟨-, success⟩ := lower_of_draft (by decide +kernel) drafted
  obtain ⟨-, loads, -⟩ :=
    loads_for_values_iff namingTypes .default .none ⟨_, _, success⟩
  have clauses : namingTypes.analysed.sourceClauses =
      [⟨"a", false, false, [false]⟩, ⟨"b", true, false, [true]⟩, ⟨"c", true, true, [true]⟩,
        ⟨"d", false, true, [false]⟩, ⟨"e", false, false, [false]⟩, ⟨"e", false, true, [true]⟩] := by
        decide +kernel
  refine ⟨_, _, success, fun path => ?_, ?_⟩
  · rw [loads, clauses]
    simp [SourceClause.carriesValues, SourceClause.passesTypes, SourceClause.listsTypes,
      eq_comm (b := path)]
  · rw [clauses]
    decide

end Module

end ModuleLowering
