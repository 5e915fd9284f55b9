import ModuleLowering.Proofs.Lower.LoadOrder

/-!
The variables that hold required modules. Each path has one, however many declarations name it, and
all that reads from the module reads from that variable.
-/

set_option autoImplicit false

namespace ModuleLowering

def Item.called? : Item → Option String
  | .requireCall path _ => some path
  | _ => none

namespace Node

theorem namesImports_iff {path : String} {n : Node} : n.namesImports path = true ↔
    ∃ s, n.Imports path s := by
  unfold namesImports Imports
  cases n.imported? with
  | none => simp
  | some entry =>
    obtain ⟨other, specifiers⟩ := entry
    simp only [Bool.and_eq_true, decide_eq_true_eq, Option.some.injEq, Prod.mk.injEq]
    constructor
    · rintro ⟨rfl, some⟩
      obtain ⟨s, listed⟩ := List.exists_mem_of_ne_nil specifiers (by simpa using some)
      exact ⟨s, specifiers, ⟨rfl, rfl⟩, listed⟩
    · rintro ⟨s, _, ⟨rfl, rfl⟩, listed⟩
      exact ⟨rfl, by simpa using List.ne_nil_of_mem listed⟩

theorem Imports.importedPath? {path : String} {s : Specifier} {n : Node} (h : n.Imports path s) :
    n.importedPath? = some path := by
  obtain ⟨specifiers, imported, -⟩ := h
  rw [Node.importedPath?, imported]
  rfl

theorem IsPlain.namesImports {n : Node} (h : n.IsPlain) (path : String) :
    n.namesImports path = false := by
  rw [Node.namesImports, h.imported]

theorem IsPlain.not_imports {n : Node} (h : n.IsPlain) {path : String} {s : Specifier} :
    ¬ n.Imports path s := by
  rintro ⟨specifiers, imported, -⟩
  rw [h.imported] at imported
  cases imported

end Node

namespace ImportGroup

variable {hints : Hints} {ns : List Node} {path : String}

theorem specifiers_of_eq_nil : (of hints ns path).specifiers = [] ↔
    ∀ n ∈ ns, n.namesImports path = false := by
  simp only [List.eq_nil_iff_forall_not_mem, mem_specifiers_of, not_exists, not_and]
  constructor
  · intro none n among
    rw [← Bool.not_eq_true, Node.namesImports_iff, not_exists]
    exact fun s => none s n among
  · intro none s n among imports
    have some := Node.namesImports_iff.mpr ⟨s, imports⟩
    rw [none n among] at some
    cases some

end ImportGroup

/-- How a lowered module requires others: each path once, and all that reads from the module goes
through the variable of its path. -/
structure Module.RequiresOnce (m : Module) (options : Options) (σ : Naming) (items : List Item)
    (redirects : RedirectTable) :
    Prop where
  paths : ((items.filterMap Item.required?).map Prod.fst).Nodup
  names : ((items.filterMap Item.required?).map Prod.snd).Nodup
  bound : ∀ path b, (path, b) ∈ items.filterMap Item.required? ↔
    b = σ.ofPath path ∧ ∃ n ∈ m.statements, n.passedPath? = some path ∨ n.namesImports path = true
  calls : (items.filterMap Item.called?).Nodup
  called : ∀ path, path ∈ items.filterMap Item.called? ↔
    (∃ n ∈ m.statements, n.importedPath? = some path) ∧
    ∀ n ∈ m.statements, n.namesImports path = false
  /-- What reads from a module comes from a declaration that names its path. -/
  reads : ∀ item ∈ items, ∀ b, item.module? = some b → ∃ n ∈ m.renamed.statements, ∃ path,
    b = σ.ofPath path ∧
    (n.passedPath? = some path ∧ item ∈ n.ahead σ options.strict ∨
      ∃ s value span, n.Imports path s ∧
      s.value? σ options.strict (σ.ofPath path) = some value ∧
      item = .importVariable s.name value span)
  passed : ∀ n ∈ m.renamed.statements, ∀ item ∈ n.ahead σ options.strict, item ∈ items
  imported : ∀ n ∈ m.renamed.statements, ∀ path s value, n.Imports path s →
    s.value? σ options.strict (σ.ofPath path) = some value →
    ∃ span, .importVariable s.name value span ∈ items
  redirected : ∀ entry ∈ redirects.entries, ∃ n ∈ m.renamed.statements, ∃ path s, n.Imports path s ∧
    entry.1 = s.name ∧
    s.redirect? options.strict (σ.ofPath path) = some entry.2

namespace Draft

variable {r : Draft} {σ : Naming} {options : Options} {hints : Hints} {ns : List Node}

theorem called?_of_loaded? {item : Item} (none : item.loaded? = none) : item.called? = .none := by
  cases item <;> first | rfl | cases none

theorem Placed.called_top (h : r.Placed σ options hints ns) : r.top.filterMap (·.2.called?) =
    (ns.filterMap Node.importedPath?).eraseDups.filter fun path =>
    (ImportGroup.of hints ns path).specifiers.isEmpty := by
  have front : (Node.emissions σ options.strict hints [] ns).top.filterMap (·.2.called?) = [] := by
    refine List.filterMap_eq_nil_iff.mpr fun e among => ?_
    obtain ⟨l₁, n, l₂, -, opening | ⟨item, listed, rfl⟩⟩ := Node.mem_top_emissions.mp among
    · obtain ⟨path, -, -, rfl⟩ := Node.mem_opening.mp opening
      rfl
    · exact called?_of_loaded? (Node.passesOn_ahead listed).loaded
  have group (path : String) :
      (Node.groupEmission σ options.strict hints ns path).top.filterMap (·.2.called?) =
      if (ImportGroup.of hints ns path).specifiers.isEmpty then [path] else [] := by
    split
    · next bare =>
      rw [Node.groupEmission, ImportGroup.emission, if_pos bare]
      rfl
    · next some =>
      refine List.filterMap_eq_nil_iff.mpr fun e among => ?_
      rcases ImportGroup.mem_top_emission.mp among with ⟨bare, -⟩ | ⟨-, -, rfl⟩
        | ⟨s, -, value, -, rfl⟩
      · exact absurd (by simpa using bare) some
      · rfl
      · rfl
  rw [h.top, List.filterMap_append, front, List.nil_append, List.filterMap_flatMap]
  simp only [group]
  induction (ns.filterMap Node.importedPath?).eraseDups with
  | nil => rfl
  | cons path paths ih =>
    rw [List.flatMap_cons, ih, List.filter_cons]
    split <;> rfl

theorem Placed.mem_paths_iff (h : r.Placed σ options hints ns) {path : String} :
    path ∈ r.requires.entries.map Prod.fst ↔ ∃ n ∈ ns, n.passedPath? = some path ∨
      n.namesImports path = true := by
  rw [h.mem_paths]
  constructor
  · rintro (passed | ⟨-, some⟩)
    · obtain ⟨n, among, passed⟩ := List.mem_filterMap.mp passed
      exact ⟨n, among, .inl passed⟩
    · obtain ⟨s, listed⟩ := List.exists_mem_of_ne_nil _ some
      obtain ⟨n, among, imports⟩ := ImportGroup.mem_specifiers_of.mp listed
      exact ⟨n, among, .inr (Node.namesImports_iff.mpr ⟨s, imports⟩)⟩
  · rintro ⟨n, among, passed | named⟩
    · exact .inl (List.mem_filterMap.mpr ⟨n, among, passed⟩)
    · obtain ⟨s, imports⟩ := Node.namesImports_iff.mp named
      exact .inr ⟨List.mem_filterMap.mpr ⟨n, among, imports.importedPath?⟩,
        List.ne_nil_of_mem (ImportGroup.mem_specifiers_of.mpr ⟨n, among, imports⟩)⟩

theorem Placed.requiresOnce {m : Module} {base : TakenNames} {own bound : String → Prop}
    (sound : r.Sound base own bound) (h : r.Placed r.naming options hints m.renamed.statements) :
    m.RequiresOnce options r.naming r.items r.redirects := by
  have required := h.required_items sound
  -- Which paths are called does not depend on how the items are arranged.
  have called : (r.items.filterMap Item.called?).Perm
      ((m.renamed.statements.filterMap Node.importedPath?).eraseDups.filter fun path =>
      (ImportGroup.of hints m.renamed.statements path).specifiers.isEmpty) := by
    have perm := r.items_perm.filterMap Item.called?
    rwa [h.filterMap_unarranged fun item passes => called?_of_loaded? passes.loaded, h.called_top]
      at perm
  constructor
  case paths => exact (required.map Prod.fst).nodup_iff.mpr sound.paths
  case names =>
    exact (required.map Prod.snd).nodup_iff.mpr (List.nodup_append'.mp sound.nodup_names).1
  case bound =>
    intro path b
    rw [required.mem_iff, sound.mem_requires, h.mem_paths_iff, m.exists_mem_renamed fun r n => by
      rw [Node.passedPath?_rename, Node.namesImports_rename], and_comm, eq_comm]
  case calls => exact called.nodup_iff.mpr ((FirstOccurrence.nodup_eraseDups _).filter _)
  case called =>
    intro path
    rw [called.mem_iff, List.mem_filter, List.mem_eraseDups, List.isEmpty_iff,
      ImportGroup.specifiers_of_eq_nil, List.mem_filterMap, m.exists_mem_renamed fun r n => by
      rw [Node.importedPath?_rename],
      m.forall_mem_renamed fun r n => by rw [Node.namesImports_rename]]
  case reads =>
    intro item among b reads
    obtain ⟨e, front, rfl⟩ := h.mem_top_of_module? among reads
    rcases h.mem_top_module? front reads with
      ⟨n, among, path, passed, same, -, ahead⟩ | ⟨path, -, same, -, s, named, value, given, eq⟩
    · exact ⟨n, among, path, same, .inl ⟨passed, ahead⟩⟩
    · obtain ⟨n, among, imports⟩ := ImportGroup.mem_specifiers_of.mp named
      exact ⟨n, among, path, same, .inr ⟨s, value, _, imports, given, eq⟩⟩
  case passed =>
    intro n among item ahead
    obtain ⟨l₁, l₂, split⟩ := List.append_of_mem among
    exact mem_items_of_mem_top (h.mem_top.mpr (.inl ⟨l₁, n, l₂, split, .inr ⟨item, ahead, rfl⟩⟩))
  case imported =>
    intro n among path s value imports given
    have listed : path ∈ m.renamed.statements.filterMap Node.importedPath? :=
      List.mem_filterMap.mpr ⟨n, among, imports.importedPath?⟩
    have named : s ∈ (ImportGroup.of hints m.renamed.statements path).specifiers :=
      ImportGroup.mem_specifiers_of.mpr ⟨n, among, imports⟩
    exact ⟨_, mem_items_of_mem_top (h.mem_top.mpr (.inr ⟨path, listed,
      ImportGroup.mem_top_emission.mpr (.inr (.inr ⟨s, named, value, given, rfl⟩))⟩))⟩
  case redirected =>
    intro entry among
    obtain ⟨path, -, here⟩ := h.mem_redirects among
    obtain ⟨s, named, same, target⟩ := ImportGroup.mem_redirects_emission here
    obtain ⟨n, among, imports⟩ := ImportGroup.mem_specifiers_of.mp named
    exact ⟨n, among, path, s, imports, same, target⟩

end Draft

namespace Module

variable {m : Module} {options : Options} {hints : Hints}

theorem requiresOnce_of_plain (plain : m.hasModuleSyntax = false) (σ : Naming) :
    m.RequiresOnce options σ (m.statements.map .kept) .empty := by
  obtain ⟨before, after⟩ := m.isPlain_of_hasModuleSyntax plain
  have required : (m.statements.map Item.kept).filterMap Item.required? = [] := by
    rw [List.filterMap_map]
    exact List.filterMap_eq_nil_iff.mpr fun n _ => rfl
  have called : (m.statements.map Item.kept).filterMap Item.called? = [] := by
    rw [List.filterMap_map]
    exact List.filterMap_eq_nil_iff.mpr fun n _ => rfl
  -- Nothing is required and nothing asks for it, so each condition is about nothing.
  constructor
  case paths | names => rw [required]; exact .nil
  case calls => rw [called]; exact .nil
  case bound =>
    intro path b
    rw [required]
    refine ⟨fun none => absurd none List.not_mem_nil, ?_⟩
    rintro ⟨-, n, among, passed | named⟩
    · rw [(before n among).passed] at passed
      cases passed
    · rw [(before n among).namesImports] at named
      cases named
  case called =>
    intro path
    rw [called]
    refine ⟨fun none => absurd none List.not_mem_nil, ?_⟩
    rintro ⟨⟨n, among, imported⟩, -⟩
    rw [Node.importedPath?, (before n among).imported] at imported
    cases imported
  case reads =>
    intro item among b reads
    obtain ⟨n, -, rfl⟩ := List.mem_map.mp among
    cases reads
  case passed =>
    intro n among item ahead
    rw [(after n among).ahead] at ahead
    cases ahead
  case imported =>
    exact fun n among path s value imports => absurd imports (after n among).not_imports
  case redirected => exact fun entry among => absurd among List.not_mem_nil

/-- A lowered module has one variable for each module that it passes on exports of or imports names
from, and one bare call for each that it only loads. Whatever reads from a module reads from its
variable. -/
theorem one_require_per_path (s : Original) (wellFormed : s.program.isWellFormed = true)
    (options : Options) (hints : Hints) (run : s.Lowering options hints) :
    let m := s.analysed
    Item.WritesOut (m.loweredBindings options hints) (m.loweredItems options hints)
      run.lowered.statements ∧
      (∃ σ, m.RequiresOnce options σ (m.loweredItems options hints)
        (m.loweredBindings options hints).redirects) ∧
      run.outcome.report.map Report.requires =
        if m.hasModuleSyntax then some ((m.loweredItems options hints).filterMap
        Item.required?).length else none := by
  intro m
  have consistent : m.Consistent := Original.consistent wellFormed
  obtain ⟨outcome, lowered, success⟩ := run
  refine ⟨writesOut consistent.program success, ?_⟩
  rcases lower_cases success with ⟨none, plain, rfl, -⟩ | ⟨r, final, declares, drafted, rfl, -⟩
  · rw [loweredItems_of_none none, loweredBindings, none, plain]
    exact ⟨⟨⟨fun _ => "", fun _ => ""⟩, requiresOnce_of_plain plain _⟩, rfl⟩
  · have sound := consistent.sound drafted
    have placed := placed_of_draft drafted
    rw [loweredItems_of_some final, loweredBindings, final, declares, if_pos rfl,
      (placed.required_items sound).length_eq]
    exact ⟨⟨r.naming, placed.requiresOnce sound⟩, rfl⟩

/-- `import { x } from "m"; export * from "m"; import "s"; import * as n from "m"; import "s";
export { y } from "k";` -/
def sharingStatements : List Node :=
  let name (x : String) := Node.made (.binder x none) []
  [.made (.importDecl false true "m") [.made (.importNamed false) [Made.word "x", name "x"],
    .absent],
   .made (.exportAll false "m") [.absent, .absent],
   .made (.importDecl false false "s") [.absent],
   .made (.importDecl false true "m") [.made .importNamespace [name "n"], .absent],
   .made (.importDecl false false "s") [.absent],
   .made (.exportFrom false "k") [.made (.exportSpecifier false) [Made.word "y", Made.word "y"],
   .absent]]

def sharing : Original := ⟨true, none, [], none, sharingStatements⟩

/-- Three declarations share the variable of `m`, and `s` is loaded once. -/
theorem one_require_per_path_sharing :
    ∃ outcome lowered, (Module.lower .default .none).run sharing.analysed = .ok outcome lowered ∧
    outcome.report.map Report.requires = some 2 ∧
    ((sharing.analysed.loweredItems .default .none).filterMap Item.required?).length = 2 ∧
    ∃ σ, sharing.analysed.RequiresOnce .default σ (sharing.analysed.loweredItems .default .none)
        (sharing.analysed.loweredBindings .default .none).redirects ∧
      ("m", σ.ofPath "m") ∈
        (sharing.analysed.loweredItems .default .none).filterMap Item.required? ∧
      ("k", σ.ofPath "k") ∈
        (sharing.analysed.loweredItems .default .none).filterMap Item.required? ∧
      "s" ∈ (sharing.analysed.loweredItems .default .none).filterMap Item.called? := by
  obtain ⟨r, drafted, computed⟩ :=
    sharing.analysed.exists_draft .default .none (fun r => r.requires.size == 2) (by decide +kernel)
  have declares : sharing.analysed.hasModuleSyntax = true := by decide +kernel
  obtain ⟨-, success⟩ := lower_of_draft declares drafted
  obtain ⟨-, ⟨σ, once⟩, count⟩ :=
    one_require_per_path sharing (by decide) .default .none
      ⟨_, _, success⟩
  have two : (sharing.analysed.outcome r).report.map Report.requires = some 2 :=
    congrArg some (eq_of_beq computed)
  rw [two, declares, if_pos rfl] at count
  refine ⟨_, _, success, two, (Option.some.inj count).symm, σ, once, (once.bound _ _).mpr ⟨rfl, ?_⟩,
    (once.bound _ _).mpr ⟨rfl, ?_⟩, (once.called _).mpr ⟨?_, ?_⟩⟩
  all_goals decide +kernel

end Module

end ModuleLowering
