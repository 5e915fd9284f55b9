import ModuleLowering.Proofs.Lower.ExportScan
import ModuleLowering.Proofs.Lower.LoweredItem
import ModuleLowering.Proofs.Scope.RenamedTable

/-!
What is left of a module whose lowering stops at an illegal export: its statements are gone, and its
own `module`, `exports` and `require` have their new names in its table already. This does not
depend on where it stops.
-/

set_option autoImplicit false

namespace ModuleLowering

theorem checkExports_error {names : List (String × Option Span)} {e : Error}
    (failed : checkExports names = .error e) :
    ∃ place, e = .illegalExport "__esModule" place := by
  induction names with
  | nil => cases failed
  | cons entry names ih =>
    obtain ⟨x, span⟩ := entry
    rw [checkExports, checkExport] at failed
    split at failed
    · next illegal =>
      cases failed
      exact ⟨_, by rw [illegal]⟩
    · exact ih failed

theorem error_of_bind {α β : Type} {x : Except Error α} {f : α → Except Error β} {e : Error}
    (failed : (x >>= f) = .error e) : x = .error e ∨ ∃ a, x = .ok a ∧ f a = .error e := by
  cases x with
  | error e' => exact .inl (by cases failed; rfl)
  | ok a => exact .inr ⟨a, rfl, failed⟩

namespace Draft

variable {hints : Hints} {r : Draft} {e : Error}

theorem scanStatement_error {n : Node} (failed : r.scanStatement hints n = .error e) :
    ∃ place, e = .illegalExport "__esModule" place := by
  obtain ⟨r', -, eq⟩ := exists_scans hints r n
  rw [eq] at failed
  rcases error_of_bind failed with illegal | ⟨_, _, done⟩
  · exact checkExports_error illegal
  · cases done

theorem scan_error {ns : List Node} (failed : r.scan hints ns = .error e) :
    ∃ place, e = .illegalExport "__esModule" place := by
  induction ns generalizing r with
  | nil => cases failed
  | cons n ns ih =>
    rcases error_of_bind failed with here | ⟨r₁, -, later⟩
    · exact scanStatement_error here
    · exact ih later

end Draft

namespace ScopeTable

def renameBinding (b : Binding) (entry : Symbol × String) : Binding :=
  if b.scope = [] ∧ b.symbol = entry.1 then { b with name := entry.2 } else b

theorem rename_eq (t : ScopeTable) (r : Renaming) :
    t.rename r =
      { t with bindings := t.bindings.map fun b => r.entries.foldl renameBinding b } := by
  obtain ⟨entries⟩ := r
  induction entries generalizing t with
  | nil => simp [rename]
  | cons entry entries ih =>
    refine (ih (t.renameRoot entry.1 entry.2)).trans ?_
    simp only [renameRoot, List.map_map, List.foldl_cons]
    rfl

def IsRuntimeSymbol (t : ScopeTable) (s : Symbol) : Prop := ∃ x ∈ runtimeNames, t.root? x = some s

/-- What an entry becomes when the symbols with a property get names that start with an
underscore. -/
structure MovedAside (moves : Symbol → Prop) (b b' : Binding) : Prop where
  scope : b'.scope = b.scope
  symbol : b'.symbol = b.symbol
  moved : b.scope = [] → moves b.symbol → b'.name.toList.head? = some '_'
  kept : ¬ (b.scope = [] ∧ moves b.symbol) → b'.name = b.name

theorem movedAside_renameBinding {entries : List (Symbol × String)}
    (head : ∀ e ∈ entries, e.2.toList.head? = some '_') (b : Binding) :
    MovedAside (· ∈ entries.map Prod.fst) b (entries.foldl renameBinding b) := by
  induction entries using List.reverseRecOn with
  | nil => exact ⟨rfl, rfl, nofun, fun _ => rfl⟩
  | append_singleton entries e ih =>
    -- The last entry moves its own symbol, and leaves the others as they are.
    have before := ih fun e listed => head e (List.mem_append_left _ listed)
    rw [List.foldl_append, List.foldl_cons, List.foldl_nil]
    generalize entries.foldl renameBinding b = b₁ at before
    unfold renameBinding
    split
    · next here =>
      refine ⟨before.scope, before.symbol, fun _ _ => head e (by simp),
        fun other => (other ⟨?_, ?_⟩).elim⟩
      · exact before.scope.symm.trans here.1
      · simp [← before.symbol, here.2]
    · next other =>
      rw [before.scope, before.symbol] at other
      refine ⟨before.scope, before.symbol, fun root among => before.moved root ?_,
        fun none => before.kept fun moves => none ?_⟩
      · have apart : b.symbol ≠ e.1 := fun same => other ⟨root, same⟩
        simpa [apart] using among
      · exact ⟨moves.1, by simp [List.mem_map.mp moves.2]⟩

end ScopeTable

namespace Module

theorem scopes_renamed (m : Module) : m.renamed.scopes = m.scopes.rename m.newNames := by
  unfold renamed
  split
  · next none =>
    have empty : m.newNames.entries = [] := List.isEmpty_iff.mp none
    rw [ScopeTable.rename, empty]
    rfl
  · rfl

theorem span_renamed (m : Module) : m.renamed.program.span = m.program.span := by
  unfold renamed
  split
  · rfl
  · exact m.program.span_rename m.newNames

theorem mem_newNames (m : Module) (s : Symbol) :
    s ∈ m.newNames.entries.map Prod.fst ↔ m.scopes.IsRuntimeSymbol s := by
  constructor
  · intro listed
    obtain ⟨e, entry, rfl⟩ := List.mem_map.mp listed
    exact Renaming.choose_rooted entry
  · rintro ⟨x, among, held⟩
    obtain ⟨y, entry⟩ := Renaming.exists_chosen ⟨m.takenNames⟩ among held
    exact List.mem_map.mpr ⟨_, entry, rfl⟩

theorem movedAside_renamed (m : Module) :
    m.renamed.scopes = { m.scopes with bindings := m.renamed.scopes.bindings } ∧
      List.Forall₂ (ScopeTable.MovedAside m.scopes.IsRuntimeSymbol) m.scopes.bindings
      m.renamed.scopes.bindings := by
  have head : ∀ e ∈ m.newNames.entries, e.2.toList.head? = some '_' := fun e listed =>
    (Renaming.choose_generates m.scopes runtimeNames ⟨m.takenNames⟩).head _
      (List.mem_map_of_mem listed)
  have moves : (· ∈ m.newNames.entries.map Prod.fst) = m.scopes.IsRuntimeSymbol :=
    funext fun s => propext (m.mem_newNames s)
  rw [scopes_renamed, ScopeTable.rename_eq]
  refine ⟨rfl, ?_⟩
  rw [List.forall₂_map_right_iff, ← moves]
  exact List.forall₂_same.mpr fun b _ => ScopeTable.movedAside_renameBinding head b

theorem scopes_renamed_eq_iff (m : Module) :
    m.renamed.scopes = m.scopes ↔ ∀ x ∈ runtimeNames, m.scopes.root? x = none := by
  obtain ⟨frame, moved⟩ := m.movedAside_renamed
  constructor
  · intro same x among
    rw [same] at moved
    cases held : m.scopes.root? x with
    | none => rfl
    | some s =>
      have bound : (⟨[], x, s⟩ : Binding) ∈ m.scopes.bindings := ScopeTable.mem_of_binding? held
      have underscore := (List.forall₂_same.mp moved _ bound).moved rfl ⟨x, among, held⟩
      have plain : ∀ y ∈ runtimeNames, y.toList.head? ≠ some '_' := by decide
      exact absurd underscore (plain x among)
  · intro free
    have nothing (s : Symbol) : ¬ m.scopes.IsRuntimeSymbol s := by
      rintro ⟨x, among, held⟩
      rw [free x among] at held
      cases held
    have same : List.Forall₂ (· = ·) m.scopes.bindings m.renamed.scopes.bindings := by
      refine moved.imp fun b b' h => ?_
      have name := h.kept fun moves => nothing _ moves.2
      obtain ⟨scope, x, s⟩ := b
      obtain ⟨scope', x', s'⟩ := b'
      obtain ⟨rfl, rfl, rfl⟩ := And.intro h.scope (And.intro h.symbol name)
      rfl
    rw [frame, ← List.forall₂_eq_eq_eq.le _ _ same]

theorem draft_of_error (m : Module) {options : Options} {hints : Hints} {e : Error} {left : Module}
    (failed : (lower options hints).run m = .error e left) :
    m.hasModuleSyntax = true ∧ m.draft options hints = .error e ∧
      m.renamed.withStatements [] = left := by
  rcases m.lower_run options hints with ⟨-, done⟩ | ⟨e', declares, drafted, stopped⟩
    | ⟨r, -, -, done⟩
  · rw [done] at failed
    cases failed
  · rw [stopped] at failed
    cases failed
    exact ⟨declares, drafted, rfl⟩
  · rw [done] at failed
    cases failed

theorem illegal_of_draft {m : Module} {options : Options} {hints : Hints} {e : Error}
    (drafted : m.draft options hints = .error e) :
    ∃ place, e = .illegalExport "__esModule" place := by
  unfold draft at drafted
  cases scanned : (Draft.start options m.namesTaken).scan hints m.renamed.statements with
  | error e =>
    rw [scanned] at drafted
    cases drafted
    exact Draft.scan_error scanned
  | ok r =>
    rw [scanned] at drafted
    cases drafted

/-- A lowering that fails leaves the module without its statements, wherever it stops. The frame of
the program stays, and in the table of scopes only the symbols of `module`, `exports` and `require`
change, each to a made-up name; so the table is what it was if the module declares none of them at
its top, and only then. -/
theorem failed_lowering_drops_statements (hashbang : Option String) (ds : List Directive)
    (span : Option Span) (statements : List Node) (scopes : ScopeTable) (options : Options)
    (hints : Hints) (e : Error) (left : Module)
    (failed : (lower options hints).run ⟨.mk (.program hashbang ds) span statements, scopes⟩ =
    .error e left) :
    (∃ place, e = .illegalExport "__esModule" place) ∧
    statements ≠ [] ∧ left.program = .mk (.program hashbang ds) span [] ∧
    left.scopes = { scopes with bindings := left.scopes.bindings } ∧
    List.Forall₂ (ScopeTable.MovedAside scopes.IsRuntimeSymbol) scopes.bindings
      left.scopes.bindings ∧
    (left.scopes = scopes ↔ ∀ x ∈ runtimeNames, scopes.root? x = none) := by
  let m : Module := ⟨.mk (.program hashbang ds) span statements, scopes⟩
  obtain ⟨declares, drafted, rfl⟩ := m.draft_of_error failed
  have illegal := illegal_of_draft drafted
  have frame : (m.renamed.withStatements []).program = .mk (.program hashbang ds) span [] := by
    show Node.mk m.renamed.program.form m.renamed.program.span [] = _
    rw [m.renamed_form rfl, span_renamed]
    rfl
  have some : statements ≠ [] := by
    rintro rfl
    cases declares
  exact ⟨illegal, some, frame, m.movedAside_renamed.1, m.movedAside_renamed.2,
    m.scopes_renamed_eq_iff⟩

section Example

/-- `var exports = 1; export { exports as __esModule };` -/
def illegal : Module := .analyse true (.mk (.program none []) none
  [Made.varDeclaration "exports" (Made.number 1) none,
   .made (.exportNamed false)
    [.made (.exportSpecifier false) [.made (.mention "exports" .none .either) [],
    Made.word "__esModule"]]])

theorem failed_lowering_drops_statements_illegal :
    ∃ e left, (lower .default .none).run illegal = .error e left ∧
    illegal.statements.length = 2 ∧ left.statements = [] ∧ left.scopes ≠ illegal.scopes := by
  have stops : (illegal.draft .default .none).toOption.isNone = true := by decide +kernel
  rcases illegal.lower_run .default .none with ⟨plain, -⟩ | ⟨e, -, -, failed⟩ | ⟨r, -, drafted, -⟩
  · exact absurd plain (by decide +kernel)
  · obtain ⟨-, -, frame, -, -, same⟩ :=
      failed_lowering_drops_statements none [] none illegal.statements illegal.scopes .default
        .none e _ failed
    have held : illegal.scopes.root? "exports" ≠ none := by decide +kernel
    exact ⟨e, _, failed, by decide +kernel, congrArg Node.parts frame, fun kept => held
      (same.mp kept _ (by decide))⟩
  · rw [drafted] at stops
    cases stops

end Example

end Module

end ModuleLowering
