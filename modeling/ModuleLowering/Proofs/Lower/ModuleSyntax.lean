import ModuleLowering.Proofs.Lower.Layout

/-!
Lowering leaves no import and no export behind, so that lowering the result once more changes
nothing.
-/

set_option autoImplicit false

namespace ModuleLowering

namespace Node

/-- As the grammar has it, an export holds what is exported, and a declaration in it is no import or
export itself. -/
def hasExportedPart : Node → Bool
  | .mk .exportDefault _ ps | .mk .exportAssignment _ ps => ps.length == 1
  | .mk .exportDeclaration _ [d] => !d.isModuleSyntax
  | .mk .exportDeclaration _ _ => false
  | .mk (.exportAll ..) _ ps => !ps.isEmpty
  | _ => true

theorem hasExportedPart_rename (r : Renaming) (n : Node) :
    (n.rename r).hasExportedPart = n.hasExportedPart := by
  obtain ⟨f, s, ps⟩ := n
  obtain ⟨f', renamed, eq⟩ := exists_rename r f s ps
  rw [eq]
  cases renamed with
  | same =>
    cases f
    case exportDefault | exportAssignment | exportAll => simp [hasExportedPart]
    case exportDeclaration =>
      match ps with
      | [] | _ :: _ :: _ => rfl
      | [d] => exact congrArg not (isModuleSyntax_rename r d)
    all_goals rfl
  | _ => rfl

theorem isModuleSyntax_of_isFunctionDeclaration {d : Node}
    (function : d.isFunctionDeclaration = true) :
    d.isModuleSyntax = false := by
  obtain ⟨f, s, ps⟩ := d
  cases f <;> first | rfl | cases function

theorem isModuleSyntax_of_isClassDeclaration {d : Node} (isClass : d.isClassDeclaration = true) :
    d.isModuleSyntax = false := by
  obtain ⟨f, s, ps⟩ := d
  cases f <;> first | rfl | cases isClass

end Node

theorem Item.isModuleSyntax_toNode {item : Item}
    (plain : ∀ n, item = .kept n → n.isModuleSyntax = false) :
    item.toNode.isModuleSyntax = false := by
  cases item
  case kept n => exact plain n rfl
  case moduleFlag isPlain => cases isPlain <;> rfl
  case helperFunction helper name => cases helper <;> rfl
  all_goals rfl

namespace Node

theorem isModuleSyntax_of_isWhole {n : Node} (fits : n.hasExportedPart = true) (whole : n.IsWhole) :
    n.isModuleSyntax = false := by
  obtain ⟨f, s, ps⟩ := n
  cases f
  case importDecl => exact (whole.notImport _ _ _ _ _ rfl).elim
  case exportFrom => exact (whole.notNamesFrom _ _ _ _ rfl).elim
  case exportNamespace => exact (whole.notNamespace _ _ _ rfl).elim
  case exportNamed => exact (whole.notNames _ _ _ rfl).elim
  case exportAll =>
    cases ps with
    | nil => cases fits
    | cons name rest => exact (whole.notAll _ _ _ _ _ rfl).elim
  case exportDefault =>
    obtain ⟨d, rfl⟩ := List.length_eq_one_iff.mp (by simpa [hasExportedPart] using fits)
    exact (whole.notDefault _ _ rfl).elim
  case exportAssignment =>
    obtain ⟨e, rfl⟩ := List.length_eq_one_iff.mp (by simpa [hasExportedPart] using fits)
    exact (whole.notAssigned _ _ rfl).elim
  case exportDeclaration =>
    rcases ps with _ | ⟨d, _ | ⟨d', rest⟩⟩
    · cases fits
    · exact (whole.notDeclaration _ _ rfl).elim
    · cases fits
  all_goals rfl

theorem Gives.isModuleSyntax {n : Node} {item : Item} (h : n.Gives item)
    (fits : n.hasExportedPart = true) :
    item.toNode.isModuleSyntax = false := by
  cases h with
  | whole whole => exact isModuleSyntax_of_isWhole fits whole
  | declaration s d => simpa [hasExportedPart, Item.toNode] using fits
  | default s declares =>
    exact declares.elim isModuleSyntax_of_isFunctionDeclaration isModuleSyntax_of_isClassDeclaration
  | named | declarators | value | expression | assigned => rfl

end Node

theorem Draft.Placed.plain_items {σ : Naming} {options : Options} {hints : Hints} {ns : List Node}
    {r : Draft} (h : r.Placed σ options hints ns) (fits : ∀ n ∈ ns, n.hasExportedPart = true)
    {item : Item} (among : item ∈ r.items) :
    item.toNode.isModuleSyntax = false := by
  rcases h.gives among with made | ⟨n, listed, gives⟩
  · refine Item.isModuleSyntax_toNode fun n same => ?_
    rw [same] at made
    cases made
  · exact gives.isModuleSyntax (fits n listed)

namespace LiveBindings

theorem isModuleSyntax_live (l : LiveBindings) (completes : Bool) {n : Node}
    (plain : n.isModuleSyntax = false) :
    (n.live l completes).isModuleSyntax = false := by
  have same := l.form_liveAt_eq (fun f => (Node.mk f none []).isModuleSyntax) false
    (fun f remade => by
    cases f <;> first | rfl | cases remade) (fun _ _ _ => rfl) completes .ordinary n
  exact same.trans plain

end LiveBindings

theorem Item.WritesOut.plain {l : LiveBindings} {items : List Item} {ns : List Node}
    (written : WritesOut l items ns) (plain : ∀ item ∈ items, item.toNode.isModuleSyntax = false) :
    ∀ n ∈ ns, n.isModuleSyntax = false := by
  intro n among
  obtain ⟨i, found⟩ := List.mem_iff_getElem?.mp among
  have inside : i < items.length := written.length ▸ (List.getElem?_eq_some_iff.mp found).1
  have listed : items[i]? = some items[i] := List.getElem?_eq_getElem inside
  have before := plain _ (List.getElem_mem inside)
  rcases written.taken i _ listed with same | ⟨completes, same⟩
  · obtain rfl := Option.some.inj (found.symm.trans same)
    exact before
  · obtain rfl := Option.some.inj (found.symm.trans same)
    exact l.isModuleSyntax_live completes before

namespace Module

theorem hasModuleSyntax_eq_false {m : Module} :
    m.hasModuleSyntax = false ↔ ∀ n ∈ m.statements, n.isModuleSyntax = false := by
  simp [hasModuleSyntax]

/-- Without imports and exports there is nothing to do, and only then is nothing done. -/
theorem lower_eq_unchanged_iff {m : Module} {options : Options} {hints : Hints} :
    (lower options hints).run m = .ok ⟨[], none⟩ m ↔
      ∀ n ∈ m.statements, n.isModuleSyntax = false := by
  rw [← hasModuleSyntax_eq_false]
  rcases m.lower_run options hints with ⟨plain, done⟩ | ⟨e, declares, -, failed⟩
    | ⟨r, declares, -, done⟩
  · exact iff_of_true done plain
  · rw [failed, declares]
    exact iff_of_false nofun nofun
  · rw [done, declares]
    refine iff_of_false (fun same => ?_) nofun
    have reported : (m.outcome r).report = none :=
      congrArg Outcome.report (EStateM.Result.ok.inj same).1
    cases reported

theorem plain_lowered {m : Module} {options : Options} {hints : Hints} {r : Draft}
    (form : ∃ hashbang ds, m.program.form = .program hashbang ds)
    (fits : ∀ n ∈ m.statements, n.hasExportedPart = true)
    (drafted : m.draft options hints = .ok r) :
    ∀ n ∈ (m.lowered r).statements, n.isModuleSyntax = false := by
  have renamed : ∀ n ∈ m.renamed.statements, n.hasExportedPart = true :=
    (m.forall_mem_renamed fun r n => by rw [Node.hasExportedPart_rename]).mpr fits
  exact (writesOut_lowered form r).plain fun item among =>
    (placed_of_draft drafted).plain_items renamed among

/-- Lowering leaves no import and no export behind, and a module without them stays as it is,
whatever its names are. So what comes out is not changed when it is lowered once more, whatever is
known about its scopes then. -/
theorem lowering_once_is_enough (hashbang : Option String) (ds : List Directive)
    (span : Option Span) (statements : List Node)
    (fits : ∀ n ∈ statements, n.hasExportedPart = true) (scopes : ScopeTable) (options : Options)
    (hints : Hints) :
    let m : Module := ⟨.mk (.program hashbang ds) span statements, scopes⟩
    ((lower options hints).run m = .ok ⟨[], none⟩ m ↔ ∀ n ∈ statements, n.isModuleSyntax = false) ∧
    ∀ outcome lowered, (lower options hints).run m = .ok outcome lowered →
      (outcome.report.isSome = true ↔ ∃ n ∈ statements, n.isModuleSyntax = true) ∧
      (∀ n ∈ lowered.statements, n.isModuleSyntax = false) ∧
      ∀ scopes' options' hints', (lower options' hints').run ⟨lowered.program, scopes'⟩ =
        .ok ⟨[], none⟩ ⟨lowered.program, scopes'⟩ := by
  intro m
  refine ⟨lower_eq_unchanged_iff, fun outcome lowered success => ?_⟩
  suffices plain : (outcome.report.isSome = true ↔ ∃ n ∈ m.statements, n.isModuleSyntax = true) ∧
      ∀ n ∈ lowered.statements, n.isModuleSyntax = false from
    ⟨plain.1, plain.2, fun scopes' options' hints' => lower_eq_unchanged_iff.mpr plain.2⟩
  rcases lower_cases success with ⟨-, plain, rfl, rfl⟩ | ⟨r, -, declares, drafted, rfl, rfl⟩
  · have none := hasModuleSyntax_eq_false.mp plain
    refine ⟨iff_of_false nofun ?_, none⟩
    rintro ⟨n, among, declares⟩
    rw [none n among] at declares
    cases declares
  · exact ⟨iff_of_true rfl (List.any_eq_true.mp declares),
      plain_lowered ⟨hashbang, ds, rfl⟩ fits drafted⟩

section Example

/-- `import { x } from "m"; export let y = x; export { y as z }; export * from "n"; export default
function () {}` and `export = x; export as namespace N;` -/
def modularStatements : List Node :=
  let name (x : String) := Node.made (.binder x none) []
  [.made (.importDecl false true "m") [.made (.importNamed false) [Made.word "x", name "x"],
    .absent],
   .made .exportDeclaration [.made (.varDecl .blockScoped false)
    [.made (.declarator false) [name "y", .absent, .made (.ident "x" .global) []]]],
   .made (.exportNamed false)
   [.made (.exportSpecifier false) [.made (.mention "y" .global .either) [], Made.word "z"]],
   .made (.exportAll false "n") [.absent, .absent],
   .made .exportDefault [.made (.function ⟨.declaration, false, false, false, false⟩)
    [.absent, .absent, .made .parameters [], .absent, .made (.body []) []]],
   .made .exportAssignment [.made (.ident "x" .global) []],
   .made (.exportNamespace "N") []]

def modular : Module := ⟨.mk (.program none []) none modularStatements, .empty⟩

/-- `var exports = 1;` -/
def plainExports : Module :=
  .analyse false (.mk (.program none []) none [Made.varDeclaration "exports" (Made.number 1) none])

theorem lowering_once_is_enough_modular :
    (∀ n ∈ modularStatements, n.hasExportedPart = true) ∧
    (∃ outcome lowered, (lower .default .none).run modular = .ok outcome lowered ∧
      outcome.report.isSome = true ∧
      (∀ n ∈ lowered.statements, n.isModuleSyntax = false) ∧
      (lower .default .none).run ⟨lowered.program, modular.scopes⟩ =
        .ok ⟨[], none⟩ ⟨lowered.program, modular.scopes⟩) ∧
    plainExports.scopes.root? "exports" ≠ none ∧
      (lower .default .none).run plainExports = .ok ⟨[], none⟩ plainExports := by
  have fits : ∀ n ∈ modularStatements, n.hasExportedPart = true := by decide
  have all := lowering_once_is_enough none [] none modularStatements fits .empty .default .none
  obtain ⟨r, drafted, -⟩ := modular.exists_draft .default .none (fun _ => true) (by decide +kernel)
  have success := (lower_of_draft (by decide) drafted).2
  obtain ⟨reported, plain, again⟩ := all.2 _ _ success
  refine ⟨fits, ⟨_, _, success, reported.mpr (by decide), plain, again _ _ _⟩, by
    decide +kernel, ?_⟩
  exact (lowering_once_is_enough none [] none plainExports.statements (by decide +kernel)
    plainExports.scopes .default .none).1.mpr (by decide +kernel)

end Example

end Module

end ModuleLowering
