import ModuleLowering.Proofs.Lower.Exposure
import ModuleLowering.Proofs.Lower.Layout
import ModuleLowering.Proofs.Lower.StarItem

/-!
The name that is kept for the module flag. A module that shows it to others is refused, at the first
place where it does; in every other module the flag alone is set under that name, and it is set just
if the module exports something that exists at run time.
-/

set_option autoImplicit false

namespace ModuleLowering

def Node.setsFlag (n : Node) : Bool := n.definedNames.contains "__esModule"

namespace Item.WritesOut

variable {l : LiveBindings} {items : List Item} {ns : List Node} (h : WritesOut l items ns)
  (others : ∀ item ∈ items, item.isFlag = false →
    item.toNode.setsFlag = false ∧ ∀ completes, (item.toNode.live l completes).setsFlag = false)
include h others

theorem setsFlag_at {i : Nat} {item : Item} {n : Node} (found : items[i]? = some item)
    (there : ns[i]? = some n) :
    if item.isFlag then n = item.toNode ∧ n.setsFlag = true else n.setsFlag = false := by
  cases flag : item.isFlag with
  | true =>
    obtain ⟨isPlain, rfl⟩ := Item.eq_moduleFlag flag
    have written := h.made i _ found rfl
    rw [there, Option.some.injEq] at written
    refine ⟨written, ?_⟩
    rw [written, Node.setsFlag, definedNames_moduleFlag]
    rfl
  | false =>
    obtain ⟨plain, live⟩ := others item (List.mem_of_getElem? found) flag
    rcases h.taken i item found with written | ⟨completes, written⟩
    · rw [there, Option.some.injEq] at written
      rw [written]
      exact plain
    · rw [there, Option.some.injEq] at written
      rw [written]
      exact live completes

theorem filter_setsFlag : ns.filter Node.setsFlag = (items.filter Item.isFlag).map Item.toNode := by
  have each : List.Forall₂ (fun item n => if item.isFlag then n = item.toNode ∧
      n.setsFlag = true else n.setsFlag = false) items ns :=
    List.forall₂_iff_get.mpr ⟨h.length.symm, fun i inItems inStatements =>
      h.setsFlag_at others (List.getElem?_eq_getElem inItems)
        (List.getElem?_eq_getElem inStatements)⟩
  clear h others
  induction each with
  | nil => rfl
  | @cons item n items ns here _ ih =>
    cases flag : item.isFlag with
    | true =>
      rw [flag, if_pos rfl] at here
      rw [List.filter_cons_of_pos here.2, List.filter_cons_of_pos flag, List.map_cons, ih, here.1]
    | false =>
      rw [flag] at here
      have silent : ¬ n.setsFlag = true := by simpa using here
      rw [List.filter_cons_of_neg silent, List.filter_cons_of_neg (by simp [flag]), ih]

end Item.WritesOut

namespace Module

variable {m : Module} {options : Options} {hints : Hints} {r : Draft}

theorem filter_setsFlag_lowered {hashbang : Option String} {ds : List Directive}
    (form : m.program.form = .program hashbang ds)
    (fits : ∀ n ∈ m.renamed.statements, n.isLookedUp = true ∧ n.exportsDeclarators = true)
    (drafted : m.draft options hints = .ok r) :
    (m.lowered r).statements.filter Node.setsFlag = r.flagItems.map Item.toNode := by
  obtain ⟨legal, pairs, same, added⟩ := exists_adds fits drafted
  have linked := added.linked (.start options m.namesTaken)
  have foreign : (m.liveBindings r).IsForeign := linked.redirects
  have unexported : "__esModule" ∉ (m.renamed.statements.flatMap Node.exportEntries).map
    ExportEntry.exported := by
    rw [map_exported_exportEntries]
    exact not_mem_exportedAs (fun n among => (fits n among).2) legal
  rw [(writesOut_lowered ⟨hashbang, ds, form⟩ r).filter_setsFlag,
    (placed_of_draft drafted).filter_isFlag]
  intro item among other
  have undefined : "__esModule" ∉ item.toNode.definedNames := by
    intro defined
    rcases added.exported_of_definedNames same among defined with exported | ⟨-, isPlain, rfl⟩
    · exact unexported exported
    · cases other
  refine ⟨by simpa [Node.setsFlag] using undefined, fun completes => ?_⟩
  have unwritten : "__esModule" ∉ (item.toNode.live (m.liveBindings r) completes).definedNames := by
    intro defined
    rcases foreign.definedNames_liveAt completes .ordinary defined with before | ⟨x, listed⟩
    · exact undefined before
    · exact unexported (added.exported_of_lists same listed)
  simpa [Node.setsFlag] using unwritten

def exposures (m : Module) : List (String × Option Span) := m.statements.flatMap Node.exposures

theorem exposures_sublist (m : Module) : m.exposures.Sublist m.program.labels := by
  obtain ⟨⟨f, s, ps⟩, scopes⟩ := m
  rw [Node.labels_mk]
  exact (List.Sublist.flatMap_right ps fun n _ => n.exposures_sublist).cons _

theorem firstReserved?_renamed (suits : m.newNames.Suits m.scopes)
    (fits : ∀ n ∈ m.statements, n.isPublication = true)
    (root : ∀ n ∈ m.statements, n.ExportsAtRoot m.scopes) :
    firstReserved? (m.renamed.statements.flatMap Node.exposures) = firstReserved? m.exposures := by
  unfold renamed exposures
  split
  · rfl
  · rw [statements_rename, List.flatMap_map]
    generalize m.statements = ns at fits root
    induction ns with
    | nil => rfl
    | cons n ns ih =>
      obtain ⟨fitsHere, fitsLater⟩ := List.forall_mem_cons.mp fits
      obtain ⟨rootHere, rootLater⟩ := List.forall_mem_cons.mp root
      have here := Node.firstReserved?_exposures_rename (newName_eq_reserved_iff suits)
        fitsHere rootHere
      rw [List.flatMap_cons, List.flatMap_cons, firstReserved?_append, firstReserved?_append, here,
        ih fitsLater rootLater]

theorem stoppedBy?_draft (suits : m.newNames.Suits m.scopes)
    (fits : ∀ n ∈ m.statements, n.isPublication = true)
    (root : ∀ n ∈ m.statements, n.ExportsAtRoot m.scopes) (options : Options) (hints : Hints) :
    stoppedBy? (m.draft options hints) = firstReserved? m.exposures := by
  rw [← firstReserved?_renamed suits fits root, ← Draft.stoppedBy?_scan hints
    (Draft.start options m.namesTaken), draft]
  cases (Draft.start options m.namesTaken).scan hints m.renamed.statements <;> rfl

theorem flagItems_of_draft (drafted : m.draft options hints = .ok r) :
    r.flagItems = if m.statements.any Node.isValueExport then [.moduleFlag options.plainFlag]
      else [] := by
  have known : r.options = options := (placed_of_draft drafted).given
  have renamed : m.renamed.statements.any Node.isValueExport = m.statements.any
    Node.isValueExport := by
    rw [Bool.eq_iff_iff, List.any_eq_true, List.any_eq_true]
    exact m.exists_mem_renamed fun r n => by rw [Node.isValueExport_rename]
  rw [Draft.flagItems, hasExports_of_draft drafted, renamed, known]

theorem silent_of_hasModuleSyntax (plain : m.hasModuleSyntax = false) :
    m.exposures = [] ∧ m.statements.any Node.isValueExport = false := by
  have each : ∀ n ∈ m.statements, n.exposures = [] ∧ n.isValueExport = false := by
    intro n among
    have other : n.isModuleSyntax = false := by simpa using List.any_eq_false.mp plain n among
    obtain ⟨f, s, ps⟩ := n
    cases f
    case exportDefault | exportDeclaration | exportNamed | exportFrom | exportAll => cases other
    all_goals exact ⟨rfl, rfl⟩
  exact ⟨List.flatMap_eq_nil_iff.mpr fun n among => (each n among).1,
    List.any_eq_false.mpr fun n among => by simp [(each n among).2]⟩

/-- A module is refused just if it shows the reserved name, and the error tells the first place
where it does. In any other module only the flag is set under that name, and it is set just if the
module exports something that exists at run time. -/
theorem reserved_name_refused (s : Original)
    (fits : ∀ n ∈ s.analysed.statements, n.isPublication = true) (options : Options)
    (hints : Hints) :
    let m := s.analysed
    m.exposures.Sublist m.program.labels ∧
    ((∃ e after, (lower options hints).run m = .error e after) ↔
      "__esModule" ∈ m.exposures.map Prod.fst) ∧
    (∀ e after, (lower options hints).run m = .error e after →
      ∃ earlier place later, m.exposures = earlier ++ ("__esModule", place) :: later ∧
        "__esModule" ∉ earlier.map Prod.fst ∧
        e = .illegalExport "__esModule" (place.getD ⟨0, 0⟩)) ∧
    ∀ outcome lowered, (lower options hints).run m = .ok outcome lowered →
      lowered.statements.filter Node.setsFlag =
        if m.statements.any Node.isValueExport then [(Item.moduleFlag options.plainFlag).toNode]
        else [] := by
  intro m
  have suits : m.newNames.Suits m.scopes := s.newNames_suits
  replace fits : ∀ n ∈ m.statements, n.isPublication = true := fits
  have root : ∀ n ∈ m.statements, n.ExportsAtRoot m.scopes := fun n => Original.exportsAtRoot
  have form : m.program.form = .program s.hashbang s.directives := rfl
  have parts : ∀ n ∈ m.statements, n.isLookedUp = true := isLookedUp_statements s.isLookedUp
  clear_value m
  have stops := stoppedBy?_draft suits fits root options hints
  refine ⟨m.exposures_sublist, ?_⟩
  rcases m.lower_run options hints with ⟨plain, done⟩ | ⟨e, -, drafted, failed⟩
    | ⟨r, -, drafted, done⟩
  · obtain ⟨silent, nothing⟩ := silent_of_hasModuleSyntax plain
    rw [done, silent, nothing]
    refine ⟨by simp, nofun, ?_⟩
    rintro _ _ ⟨⟩
    exact List.filter_eq_nil_iff.mpr fun n among => by
      simp [Node.setsFlag, Node.definedNames_of_isLookedUp (parts n among)]
  · rw [drafted] at stops
    rw [failed]
    have reserved : "__esModule" ∈ m.exposures.map Prod.fst := by
      by_contra legal
      rw [firstReserved?_eq_none_iff.mpr legal] at stops
      cases stops
    refine ⟨by simp [reserved], ?_, nofun⟩
    rintro _ _ ⟨⟩
    exact exists_of_firstReserved? stops.symm
  · rw [drafted] at stops
    rw [done]
    have legal := firstReserved?_eq_none_iff.mp stops.symm
    refine ⟨by simp [legal], nofun, ?_⟩
    rintro _ _ ⟨⟩
    rw [filter_setsFlag_lowered form (renamed_exports parts fits root).1 drafted,
      flagItems_of_draft drafted]
    split <;> rfl

section Example

/-- `export type { __esModule }; export let { x: [__esModule] } = v; export { w as __esModule };` -/
def refusing : Original :=
  ⟨true, none, [], some ⟨0, 92⟩,
    [.mk (.exportNamed true) (some ⟨0, 27⟩) [.mk (.exportSpecifier false) (some ⟨14, 24⟩)
      [.mk (.mention "__esModule" .none .either) (some ⟨14, 24⟩) [], .mk (.word "__esModule")
     (some ⟨14, 24⟩) []]], .mk .exportDeclaration (some ⟨28, 65⟩)
      [.mk (.varDecl .blockScoped false) (some ⟨35, 65⟩) [.mk (.declarator false) (some ⟨39, 64⟩)
        [.mk .bindingObject (some ⟨39, 60⟩) [.mk (.bindingProperty false false) (some ⟨41, 58⟩)
          [.mk (.word "x") (some ⟨41, 42⟩) [],
           .mk .bindingArray (some ⟨44, 56⟩) [.mk (.binder "__esModule" none) (some ⟨45, 55⟩) []]]],
         Node.absent, .mk (.ident "v" .none) (some ⟨63, 64⟩) []]]],
     .mk (.exportNamed false) (some ⟨66, 92⟩) [.mk (.exportSpecifier false) (some ⟨75, 90⟩)
      [.mk (.mention "w" .none .either) (some ⟨75, 76⟩) [], .mk (.word "__esModule")
      (some ⟨80, 90⟩) []]]]⟩

/-- What is only a type is passed over, and the name in the pattern comes first. -/
theorem reserved_name_refused_refusing : ∃ after,
    (Module.lower .default .none).run refusing.analysed = .error
    (.illegalExport "__esModule" ⟨45, 55⟩) after := by
  obtain ⟨-, stops, first, -⟩ :=
    reserved_name_refused refusing (by decide +kernel) .default .none
  obtain ⟨e, after, failed⟩ := stops.mpr (by decide +kernel)
  obtain ⟨earlier, place, later, split, free, rfl⟩ := first e after failed
  have shown : refusing.analysed.exposures = [("__esModule", some ⟨45, 55⟩),
    ("__esModule", some ⟨80, 90⟩)] := by decide +kernel
  rw [shown] at split
  cases earlier with
  | nil =>
    cases split
    exact ⟨after, failed⟩
  | cons name rest =>
    obtain ⟨rfl, -⟩ := List.cons.inj split
    simp at free

end Example

end Module

end ModuleLowering
