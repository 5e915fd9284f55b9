import ModuleLowering.Proofs.Lower.AlphaRenaming
import ModuleLowering.Proofs.Lower.ExportScan
import ModuleLowering.Proofs.Lower.Provenance
import ModuleLowering.Proofs.Lower.RenamedExport

/-!
Under which names a lowered module offers what it exports. A module's own `module`, `exports` and
`require` get new names, and so does what is exported by being declared under one of them.
-/

set_option autoImplicit false

namespace ModuleLowering

theorem ExportEntry.Realised.name {isStrict : Bool} {items : List Item} {entry : ExportEntry}
    {w : ExportWrite} (h : entry.Realised isStrict items w) : w.name = entry.exported := by
  cases entry with
  | declared | value =>
    obtain rfl := h
    rfl
  | binding =>
    obtain ⟨_, _, rfl⟩ := h
    rfl
  | reexport =>
    obtain ⟨_, _, -, write⟩ := h
    split at write
    · obtain ⟨_, -, rfl⟩ := write
      rfl
    · rw [write]
      rfl
  | wholeModule =>
    obtain ⟨_, _, -, write⟩ := h
    split at write
    · rw [write]
      rfl
    · obtain ⟨_, -, rfl⟩ := write
      rfl

theorem ExportEntry.exported_of_pair? {entry : ExportEntry} {x e : String}
    (h : entry.pair? = some (x, e)) :
    entry.exported = e := by
  cases entry <;> simp only [pair?, Option.some.injEq, Prod.mk.injEq, reduceCtorEq] at h
  · exact h.2
  · exact h.2

theorem ExportEntry.exported_of_mem {entries : List ExportEntry} {pairs : List (String × String)}
    (same : pairs.Perm (entries.filterMap pair?)) {x e : String} (among : (x, e) ∈ pairs) :
    e ∈ entries.map exported := by
  obtain ⟨entry, listed, pair⟩ := List.mem_filterMap.mp (same.mem_iff.mp among)
  exact List.mem_map.mpr ⟨entry, listed, exported_of_pair? pair⟩

namespace Item

theorem definedNames_exportStar (binding : String) (span : Option Span) :
    (exportStar binding span).toNode.definedNames = [] := by
  rw [Node.definedNames, exportWrites_exportStar]
  rfl

theorem definedNames_moduleFlag (isPlain : Bool) : (moduleFlag isPlain).toNode.definedNames =
    ["__esModule"] := by
  cases isPlain with
  | true =>
    simp only [toNode, Node.definedNames, Made.exportWrites_expression,
      Made.exportWrites_exportAssignment]
    rfl
  | false =>
    simp only [toNode, Node.definedNames, Made.exportWrites_expression]
    rw [Made.exportWrites_defineExport "__esModule" fun _ => rfl]
    rfl

theorem mem_definedNames_predeclaration {names : List String} {e : String} :
    e ∈ (predeclaration names).toNode.definedNames ↔ e ∈ names := by
  rw [toNode, Node.definedNames, Made.exportWrites_expression]
  exact Made.mem_definedNames_exportChain.trans (or_iff_left List.not_mem_nil)

theorem definedNames_eq {item : Item} (single : item.isCollective = false) :
    item.toNode.definedNames = item.exportWrites.map ExportWrite.name := by
  rw [exportWrites, single]
  rfl

end Item

namespace Draft

section
variable {options : Options} {taken : TakenNames} {entries : List ExportEntry}
    {pairs : List (String × String)} {r : Draft}
  (h : Adds entries pairs (Draft.start options taken) r)
include h

theorem Adds.names_perm : (r.exportWrites.map ExportWrite.name).Perm
    (entries.map ExportEntry.exported) := by
  obtain ⟨ws, perm, realised⟩ := h.writes
  have names : List.Forall₂ (· = ·) (entries.map ExportEntry.exported) (ws.map ExportWrite.name) :=
    List.forall₂_map_left_iff.mpr
      (List.forall₂_map_right_iff.mpr (realised.imp fun _ _ h => h.name.symm))
  rw [List.forall₂_eq_eq_eq] at names
  rw [names]
  exact perm.map ExportWrite.name

theorem Adds.isCollective_of_definedNames {item : Item} (inside : item ∈ r.content) {e : String}
    (defined : e ∈ item.toNode.definedNames) : item.isCollective = false := by
  have plain := (h.preamble item inside).resolve_left List.not_mem_nil
  cases item with
  | exportStar =>
    rw [Item.definedNames_exportStar] at defined
    cases defined
  | moduleFlag | predeclaration => cases plain
  | _ => rfl

variable (same : pairs.Perm (entries.filterMap ExportEntry.pair?))
include same

theorem Adds.exported_of_lists {x e : String} (listed : r.exports.Lists x e) :
    e ∈ entries.map ExportEntry.exported := by
  have table : r.exports = ExportTable.ofPairs pairs := h.table
  rw [table, ExportTable.lists_ofPairs] at listed
  exact ExportEntry.exported_of_mem same listed

theorem Adds.exported_of_definedNames {item : Item} (among : item ∈ r.items) {e : String}
    (defined : e ∈ item.toNode.definedNames) :
    e ∈ entries.map ExportEntry.exported ∨ e = "__esModule" ∧
      ∃ isPlain, item = .moduleFlag isPlain := by
  rcases items_cases among with inside | ⟨isPlain, rfl⟩ | rfl | rfl
  · rw [Item.definedNames_eq (h.isCollective_of_definedNames inside defined)] at defined
    rw [← h.names_perm.mem_iff, exportWrites, List.map_flatMap]
    exact .inl (List.mem_flatMap.mpr ⟨item, inside, defined⟩)
  · rw [Item.definedNames_moduleFlag, List.mem_singleton] at defined
    exact .inr ⟨defined, isPlain, rfl⟩
  · rw [Item.mem_definedNames_predeclaration] at defined
    rcases (h.early e defined).resolve_left List.not_mem_nil with entry | pair
    · exact .inl entry
    · obtain ⟨⟨x, _⟩, listed, rfl⟩ := List.mem_map.mp pair
      exact .inl (ExportEntry.exported_of_mem same listed)
  · rw [Item.definedNames_eq rfl, Item.exportWrites_of_isSilent rfl] at defined
    cases defined

theorem Adds.mem_definedNames_items {e : String} (other : e ≠ "__esModule") :
    (∃ item ∈ r.items, e ∈ item.toNode.definedNames) ↔ e ∈ entries.map ExportEntry.exported := by
  constructor
  · rintro ⟨item, among, defined⟩
    exact (h.exported_of_definedNames same among defined).resolve_right fun flag => other flag.1
  · intro exported
    rw [← h.names_perm.mem_iff, exportWrites, List.map_flatMap] at exported
    obtain ⟨item, inside, write⟩ := List.mem_flatMap.mp exported
    refine ⟨item, r.content_subset_items inside, ?_⟩
    cases collective : item.isCollective with
    | false => rwa [Item.definedNames_eq collective]
    | true => simp [Item.exportWrites, collective] at write

end

end Draft

theorem Node.specifierExports_of_listedExport? {specifiers : List Node} {e : String}
    (listed : e ∈ (specifiers.filterMap listedExport?).map ExportEntry.exported) :
    e ∈ (specifierExports specifiers).map Prod.fst := by
  obtain ⟨entry, among, rfl⟩ := List.mem_map.mp listed
  obtain ⟨n, member, eq⟩ := List.mem_filterMap.mp among
  unfold listedExport? at eq
  split at eq
  · next name other =>
    cases eq
    exact List.mem_map.mpr ⟨(other.nameText, other.span), List.mem_filterMap.mpr
      ⟨_, member, rfl⟩, rfl⟩
  · cases eq

theorem Node.announced_of_exported {n : Node} {e : String} (fits : n.exportsDeclarators = true)
    (exported : e ∈ n.exportedAs) :
    e = "default" ∨ e ∈ n.announcedNames := by
  have shown := exported
  unfold exportedAs exportEntries at shown
  split at shown
  · rw [exportedAs_default] at exported
    split at exported
    · cases exported
    · exact .inl (List.mem_singleton.mp exported)
  · rw [exportedAs_declaration _ fits] at exported
    refine .inr (Eq.mp ?_ exported)
    simp only [announcedNames]
  · exact .inr (specifierExports_of_listedExport? shown)
  · next path _ parts =>
    rw [List.map_filterMap] at shown
    simp only [exported_passedExport?] at shown
    rw [← List.map_filterMap] at shown
    have listed := specifierExports_of_listedExport? shown
    exact .inr (((List.dropLast_sublist parts).filterMap _).map Prod.fst |>.subset listed)
  · next name _ =>
    simp only [announcedNames]
    split at shown
    · cases shown
    · next runtime =>
      rw [if_neg runtime]
      exact .inr shown
  · cases shown

namespace Module

/-- The names under which a module offers something on `exports`, apart from the flag that it is a
module. -/
def publicNames (m : Module) : List String := m.program.definedNames.filter (· ≠ "__esModule")

def exportedNames (m : Module) : List String := m.statements.flatMap Node.exportedAs

def declaredExports (m : Module) : List String :=
  (m.statements.filter (·.form = .exportDeclaration)).flatMap Node.exportedAs

/-- What a lowered module offers is what the module exports, under the names that it declares after
renaming. That changes what it offers just if it declares and exports a name of the runtime at
once. -/
structure Offers (m lowered : Module) : Prop where
  names : ∀ e, e ∈ lowered.publicNames ↔ e ∈ m.statements.flatMap (Node.externalNames m.newName)
  kept : (∀ x ∈ m.declaredExports, x ∉ runtimeNames) → ∀ e, e ∈ lowered.publicNames ↔
    e ∈ m.exportedNames
  changed : m.exportedNames.Nodup → (∀ e, e ∈ lowered.publicNames ↔ e ∈ m.exportedNames) →
    ∀ x ∈ m.declaredExports, x ∉ runtimeNames

section
variable {m : Module} (suits : m.newNames.Suits m.scopes)
include suits

theorem newName_of_not_mem {x : String} (other : x ∉ runtimeNames) : m.newName x = x := by
  rcases m.newNames.referred_cases (m.scopes.rootReference x) x with same | ⟨s, symbol, entry⟩
  · exact same
  · unfold ScopeTable.rootReference at symbol
    split at symbol
    · next held =>
      cases symbol
      exact absurd (mem_runtimeNames_of_renamed suits held (List.mem_map_of_mem entry)) other
    · cases symbol

theorem newName_head {x : String} (among : x ∈ runtimeNames) {s : Symbol}
    (held : m.scopes.root? x = some s) :
    (m.newName x).toList.head? = some '_' := by
  obtain ⟨y, entry⟩ := Renaming.exists_chosen ⟨m.takenNames⟩ among held
  have name : m.newName x = y := by
    rw [newName, ScopeTable.rootReference, held]
    exact Renaming.nameOf_of_mem suits.distinct entry x
  rw [name]
  exact suits.head _ entry

end

theorem mem_definedNames_lowered {m : Module} {hashbang : Option String} {ds : List Directive}
    (form : m.program.form = .program hashbang ds) {r : Draft} (linked : r.Linked) {e : String} :
    ((∃ item ∈ r.items, e ∈ item.toNode.definedNames) → e ∈ (m.lowered r).program.definedNames) ∧
    (e ∈ (m.lowered r).program.definedNames →
      (∃ item ∈ r.items, e ∈ item.toNode.definedNames) ∨ ∃ x, r.exports.Lists x e) := by
  have program : (m.assembled r).program = .mk (.program hashbang ds) m.renamed.program.span
    (r.items.map Item.toNode) := by
    rw [assembled, withStatements, m.renamed_form form]
  have before : e ∈ (m.assembled r).program.definedNames ↔
    ∃ item ∈ r.items, e ∈ item.toNode.definedNames := by
    rw [program, Node.mem_definedNames]
    simp [Node.definedName?, Node.exportWrite?, Form.isOccurrence]
  have foreign : (LiveBindings.mk (m.assembled r).scopes r.redirects r.exports).IsForeign :=
    linked.redirects
  rw [← before, lowered, makeLive_eq]
  split
  · exact ⟨id, .inl⟩
  · exact ⟨foreign.definedNames_subset true .ordinary, foreign.definedNames_liveAt true .ordinary⟩

theorem renamed_exports {m : Module} (lookedUp : ∀ n ∈ m.statements, n.isLookedUp = true)
    (fits : ∀ n ∈ m.statements, n.isPublication = true)
    (root : ∀ n ∈ m.statements, n.ExportsAtRoot m.scopes) :
    (∀ n ∈ m.renamed.statements, n.isLookedUp = true ∧ n.exportsDeclarators = true) ∧
    m.renamed.statements.flatMap Node.exportedAs = m.statements.flatMap
      (Node.externalNames m.newName) := by
  unfold renamed
  split
  · next empty =>
    have same : m.newName = id := by
      funext x
      rcases m.newNames.referred_cases (m.scopes.rootReference x) x with same | ⟨s, -, entry⟩
      · exact same
      · rw [List.isEmpty_iff.mp empty] at entry
        cases entry
    refine ⟨fun n among => ⟨lookedUp n among, ?_⟩, List.flatMap_congr fun n _ => ?_⟩
    · exact Node.exportsDeclarators_of_isPublication (fits n among)
    · rw [same, Node.externalNames_id]
  · rw [statements_rename]
    refine ⟨List.forall_mem_map.mpr fun n among => ⟨?_, Node.exportsDeclarators_rename
      (fits n among)⟩, ?_⟩
    · rw [Node.isLookedUp_rename]
      exact lookedUp n among
    · rw [List.flatMap_map]
      exact List.flatMap_congr fun n among => Node.exportedAs_rename (fits n among) (root n among)

theorem mem_publicNames {m : Module} {e : String} : e ∈ m.publicNames ↔ e ∈ m.program.definedNames ∧
    e ≠ "__esModule" := by
  simp [publicNames]

theorem map_exported_exportEntries (ns : List Node) :
    (ns.flatMap Node.exportEntries).map ExportEntry.exported = ns.flatMap Node.exportedAs := by
  rw [List.map_flatMap]
  rfl

theorem not_mem_exportedAs {ns : List Node} (fits : ∀ n ∈ ns, n.exportsDeclarators = true)
    (legal : "__esModule" ∉ ns.flatMap Node.announcedNames) :
    "__esModule" ∉ ns.flatMap Node.exportedAs := by
  intro exported
  obtain ⟨n, among, here⟩ := List.mem_flatMap.mp exported
  rcases Node.announced_of_exported (fits n among) here with isDefault | announced
  · exact absurd isDefault (by decide)
  · exact legal (List.mem_flatMap.mpr ⟨n, among, announced⟩)

theorem exists_adds {m : Module} (fits : ∀ n ∈ m.renamed.statements, n.isLookedUp = true ∧
    n.exportsDeclarators = true) {options : Options} {hints : Hints} {r : Draft} (drafted :
    m.draft options hints = .ok r) :
    "__esModule" ∉ m.renamed.statements.flatMap Node.announcedNames ∧ ∃ pairs,
      pairs.Perm ((m.renamed.statements.flatMap Node.exportEntries).filterMap ExportEntry.pair?) ∧
        Draft.Adds (m.renamed.statements.flatMap Node.exportEntries) pairs
        (Draft.start options m.namesTaken) r := by
  obtain ⟨r₀, scanned, rfl⟩ := exists_scan drafted
  have known : (Draft.start options m.namesTaken).Linked := .start options m.namesTaken
  have answer : (Draft.start options m.namesTaken).Answers _ _
    ((Draft.start options m.namesTaken).scan hints _) :=
    Draft.scan_answers (fun n among => (fits n among).1) (fun n among => (fits n among).2) known
  rw [scanned] at answer
  obtain ⟨legal, pairs, same, added⟩ := answer
  have finished := added.trans (.lowerImports (added.linked known))
  rw [List.append_nil, List.append_nil] at finished
  exact ⟨legal, pairs, same, finished⟩

theorem publicNames_of_draft {m : Module} {hashbang : Option String} {ds : List Directive}
    (form : m.program.form = .program hashbang ds)
    (fits : ∀ n ∈ m.renamed.statements, n.isLookedUp = true ∧ n.exportsDeclarators = true)
    {options : Options} {hints : Hints} {r : Draft} (drafted : m.draft options hints = .ok r)
    (e : String) :
    e ∈ (m.lowered r).publicNames ↔ e ∈ m.renamed.statements.flatMap Node.exportedAs := by
  obtain ⟨legal, pairs, same, added⟩ := exists_adds fits drafted
  obtain ⟨keep, source⟩ :=
    mem_definedNames_lowered (e := e) form (added.linked (.start options m.namesTaken))
  rw [mem_publicNames, ← map_exported_exportEntries]
  constructor
  · rintro ⟨defined, other⟩
    rcases source defined with set | ⟨x, listed⟩
    · exact (added.mem_definedNames_items same other).mp set
    · exact added.exported_of_lists same listed
  · intro exported
    have other : e ≠ "__esModule" := by
      rintro rfl
      rw [map_exported_exportEntries] at exported
      exact not_mem_exportedAs (fun n among => (fits n among).2) legal exported
    exact ⟨keep ((added.mem_definedNames_items same other).mpr exported), other⟩

theorem Offers.of_names {m lowered : Module} (suits : m.newNames.Suits m.scopes)
    (fits : ∀ n ∈ m.statements, n.isPublication = true)
    (root : ∀ n ∈ m.statements, n.ExportsAtRoot m.scopes)
    (names : ∀ e, e ∈ lowered.publicNames ↔
    e ∈ m.statements.flatMap (Node.externalNames m.newName)) : m.Offers lowered := by
  refine ⟨names, fun free e => ?_, fun distinct same x declared among => ?_⟩
  · rw [names, exportedNames]
    refine iff_of_eq (congrArg (e ∈ ·) (List.flatMap_congr fun n member => ?_))
    unfold Node.externalNames
    split
    · next form =>
      refine (List.map_congr_left fun x exported => newName_of_not_mem suits (free x ?_)).trans
        (List.map_id _)
      exact List.mem_flatMap.mpr ⟨n, List.mem_filter.mpr ⟨member, by simpa using form⟩, exported⟩
    · rfl
  · obtain ⟨n, listed, exported⟩ := List.mem_flatMap.mp declared
    obtain ⟨member, form⟩ := List.mem_filter.mp listed
    have offered := (same x).mpr (List.mem_flatMap.mpr ⟨n, member, exported⟩)
    obtain ⟨n', member', external⟩ := List.mem_flatMap.mp ((names x).mp offered)
    unfold Node.externalNames at external
    split at external
    · -- No declaration offers the name: it would have to be declared under it after renaming.
      next form' =>
      obtain ⟨y, exported', rfl⟩ := List.mem_map.mp external
      by_cases reserved : y ∈ runtimeNames
      · obtain ⟨s, held⟩ := Node.root_of_exportedAs (fits n' member') (root n' member')
          form' exported'
        exact head_of_runtimeNames _ among (newName_head suits reserved held)
      · rw [newName_of_not_mem suits reserved] at among
        exact reserved among
    · -- And no other statement does, as it would be exported twice.
      next other =>
      have different : n ≠ n' := by
        rintro rfl
        exact other (by simpa using form)
      have symmetric : Std.Symm (Function.onFun List.Disjoint Node.exportedAs) :=
        ⟨fun _ _ apart _ left right => apart right left⟩
      exact (List.nodup_flatMap.mp distinct).2.forall member member' different exported external

theorem public_names_follow_declarations (s : Original)
    (fits : ∀ n ∈ s.analysed.statements, n.isPublication = true) (options : Options) (hints : Hints)
    (run : s.Lowering options hints) : s.analysed.Offers run.lowered := by
  have suits := s.newNames_suits
  have root : ∀ n ∈ s.analysed.statements, n.ExportsAtRoot s.analysed.scopes := fun n =>
    Original.exportsAtRoot
  have form : s.analysed.program.form = .program s.hashbang s.directives := rfl
  have lookedUp := s.isLookedUp
  obtain ⟨outcome, lowered, success⟩ := run
  show s.analysed.Offers lowered
  generalize s.analysed = m at *
  have parts := isLookedUp_statements lookedUp
  obtain ⟨ready, renamed⟩ := renamed_exports parts fits root
  refine .of_names suits fits root fun e => ?_
  rcases lower_cases success with ⟨-, plain, -, same⟩ | ⟨r, -, -, drafted, -, rfl⟩
  · have silent : m.statements.flatMap (Node.externalNames m.newName) = [] :=
      List.flatMap_eq_nil_iff.mpr fun n among =>
        Node.externalNames_of_not_isModuleSyntax (by simpa using List.any_eq_false.mp plain n among)
    rw [silent, same, mem_publicNames, Node.definedNames_of_isLookedUp lookedUp]
    simp
  · rw [publicNames_of_draft form ready drafted, renamed]

section Example

/-- `export let exports = 1; let module = 2; export { module };` -/
def reserving : Module :=
  .analyse true (.made (.program none [])
    [.made .exportDeclaration [.made (.varDecl .blockScoped false)
      [.made (.declarator false) [.made (.binder "exports" none) [], Node.absent, Made.number 1]]],
     .made (.varDecl .blockScoped false)
      [.made (.declarator false) [.made (.binder "module" none) [], Node.absent, Made.number 2]],
     .made (.exportNamed false) [.made (.exportSpecifier false)
      [.made (.mention "module" .none .either) [], Made.word "module"]]])

/-- The list keeps the name `module`, and the declaration does not keep `exports`. -/
theorem public_names_follow_declarations_reserving : ∃ outcome lowered,
    (Module.lower .default .none).run reserving = .ok outcome lowered ∧ reserving.Offers lowered ∧
      reserving.exportedNames = ["exports", "module"] ∧
      "module" ∈ lowered.publicNames ∧ "exports" ∉ lowered.publicNames ∧
      "_exports" ∈ lowered.publicNames := by
  have offers := public_names_follow_declarations ⟨true, none, [], none, _⟩ (by decide) .default
    .none ⟨_, _, (rfl : (Module.lower .default .none).run reserving = _)⟩
  refine ⟨_, _, rfl, offers, by decide +kernel, ?_⟩
  simp only [offers.names]
  decide +kernel

end Example

end Module

end ModuleLowering
