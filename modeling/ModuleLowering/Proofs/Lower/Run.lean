import ModuleLowering.Proofs.Lower.DeclaredName
import ModuleLowering.Proofs.Lower.HelperCall
import ModuleLowering.Proofs.Lower.HelperText
import ModuleLowering.Proofs.Lower.WriteOnce

/-!
The lowering of a module, stage by stage.
-/

set_option autoImplicit false

namespace ModuleLowering

theorem Draft.Calls.isFunctionName {r : Draft} (calls : r.Calls) {e : Helper × String}
    (among : e ∈ r.helpers) : IsFunctionName e.2 := by
  obtain ⟨i, named⟩ := calls.named e among
  rw [named]
  exact TakenNames.isFunctionName_candidate ..

namespace Module

variable (m : Module)

def newNames : Renaming := (Renaming.choose m.scopes runtimeNames ⟨m.takenNames⟩).1

def namesTaken : TakenNames := (Renaming.choose m.scopes runtimeNames ⟨m.takenNames⟩).2

def renamed : Module := if m.newNames.isEmpty then m else m.rename m.newNames

def draft (options : Options) (hints : Hints) : Except Error Draft :=
  ((Draft.start options m.namesTaken).scan hints m.renamed.statements).map Draft.lowerImports

def assembled (r : Draft) : Module := m.renamed.withStatements (r.items.map Item.toNode)

def liveBindings (r : Draft) : LiveBindings := ⟨m.renamed.scopes, r.redirects, r.exports⟩

def lowered (r : Draft) : Module := ((m.assembled r).makeLive r.redirects r.exports).1

def outcome (r : Draft) : Outcome :=
  ⟨r.log, some ⟨m.newNames.entries.length, r.requires.size, r.exports.size, r.redirects.size,
    ((m.assembled r).makeLive r.redirects r.exports).2, r.hasExports⟩⟩

theorem renamed_form {hashbang : Option String} {ds : List Directive}
    (form : m.program.form = .program hashbang ds) :
    m.renamed.program.form = .program hashbang ds := by
  unfold renamed
  split
  · exact form
  · show (m.program.rename m.newNames).form = _
    have renamed := Node.renamed_form m.newNames m.program
    rw [form] at renamed
    generalize (m.program.rename m.newNames).form = f at renamed
    cases renamed
    rfl

variable {m}

theorem exists_scan {options : Options} {hints : Hints} {r : Draft}
    (drafted : m.draft options hints = .ok r) :
    ∃ r₀, (Draft.start options m.namesTaken).scan hints m.renamed.statements = .ok r₀ ∧
      r = r₀.lowerImports := by
  unfold draft at drafted
  cases scanned : (Draft.start options m.namesTaken).scan hints m.renamed.statements with
  | error e => rw [scanned] at drafted; cases drafted
  | ok r₀ => rw [scanned] at drafted; cases drafted; exact ⟨r₀, rfl, rfl⟩

theorem calls_of_draft {options : Options} {hints : Hints} {r : Draft}
    (drafted : m.draft options hints = .ok r) : r.Calls := by
  obtain ⟨r₀, scanned, rfl⟩ := exists_scan drafted
  exact ((Draft.Calls.start options m.namesTaken).scan scanned).lowerImports

variable (m)

theorem lower_eq (options : Options) (hints : Hints) :
    (lower options hints).run m =
      EStateM.run (if !m.hasModuleSyntax then return ⟨[], none⟩ else do
        set (m.renamed.withStatements [])
        let r ← MonadExcept.ofExcept
          ((Draft.start options m.namesTaken).scan hints m.renamed.statements)
        m.renamed.complete m.newNames.entries.length r.lowerImports) m := rfl

/-- No helper is in the way of a draft. -/
theorem complete_run {options : Options} {hints : Hints} {r : Draft}
    (drafted : m.draft options hints = .ok r) (m' : Module) :
    (m.renamed.complete m.newNames.entries.length r).run m' = .ok (m.outcome r) (m.lowered r) := by
  rw [complete, Draft.finish_eq fun e among => (calls_of_draft drafted).isFunctionName among]
  rfl

/-- What lowering does with a module, and when it stops. -/
theorem lower_run (options : Options) (hints : Hints) :
    (m.hasModuleSyntax = false ∧ (lower options hints).run m = .ok ⟨[], none⟩ m) ∨
    (∃ e, m.hasModuleSyntax = true ∧ m.draft options hints = .error e ∧
      (lower options hints).run m = .error e (m.renamed.withStatements [])) ∨
    ∃ r, m.hasModuleSyntax = true ∧ m.draft options hints = .ok r ∧
      (lower options hints).run m = .ok (m.outcome r) (m.lowered r) := by
  rw [lower_eq]
  cases m.hasModuleSyntax with
  | false => exact .inl ⟨rfl, rfl⟩
  | true =>
    cases scanned : (Draft.start options m.namesTaken).scan hints m.renamed.statements with
    | error e => exact .inr (.inl ⟨e, rfl, by rw [draft, scanned]; rfl, rfl⟩)
    | ok r =>
      have drafted : m.draft options hints = .ok r.lowerImports := by rw [draft, scanned]; rfl
      exact .inr (.inr ⟨_, rfl, drafted, m.complete_run drafted _⟩)

def finalDraft? (m : Module) (options : Options) (hints : Hints) : Option Draft :=
  if m.hasModuleSyntax then (m.draft options hints).toOption else none

section
variable {m} {options : Options} {hints : Hints}

theorem lower_of_plain (plain : m.hasModuleSyntax = false) :
    (lower options hints).run m = .ok ⟨[], none⟩ m := by
  rw [lower_eq, plain]
  rfl

theorem lower_cases {outcome : Outcome} {lowered : Module}
    (success : (lower options hints).run m = .ok outcome lowered) :
    (m.finalDraft? options hints = none ∧ m.hasModuleSyntax = false ∧ outcome = ⟨[], none⟩ ∧
      lowered = m) ∨
    ∃ r, m.finalDraft? options hints = some r ∧ m.hasModuleSyntax = true ∧
      m.draft options hints = .ok r ∧
      outcome = m.outcome r ∧ lowered = m.lowered r := by
  rcases m.lower_run options hints with ⟨plain, done⟩ | ⟨e, -, -, failed⟩
    | ⟨r, declares, drafted, done⟩
  · rw [done] at success
    cases success
    exact .inl ⟨by rw [finalDraft?, plain]; rfl, plain, rfl, rfl⟩
  · rw [failed] at success
    cases success
  · rw [done] at success
    cases success
    exact .inr ⟨r, by rw [finalDraft?, declares, drafted]; rfl, declares, drafted, rfl, rfl⟩

theorem lower_of_draft {r : Draft} (declares : m.hasModuleSyntax = true)
    (drafted : m.draft options hints = .ok r) :
    m.finalDraft? options hints = some r ∧ (lower options hints).run m = .ok (m.outcome r)
      (m.lowered r) := by
  refine ⟨by rw [finalDraft?, declares, drafted]; rfl, ?_⟩
  rcases m.lower_run options hints with ⟨plain, -⟩ | ⟨e, -, failed, -⟩ | ⟨r', -, same, done⟩
  · rw [declares] at plain
    cases plain
  · rw [drafted] at failed
    cases failed
  · rw [drafted] at same
    cases same
    exact done

end

/-- A module that comes to a draft with some property, if that can be computed. -/
theorem exists_draft (options : Options) (hints : Hints) (test : Draft → Bool)
    (passes : (m.draft options hints).toOption.any test = true) :
    ∃ r, m.draft options hints = .ok r ∧ test r = true := by
  cases drafted : m.draft options hints with
  | error e =>
    rw [drafted] at passes
    cases passes
  | ok r =>
    rw [drafted] at passes
    exact ⟨r, rfl, passes⟩

end Module

/-- A run of the lowering that comes to its end. -/
structure Original.Lowering (s : Original) (options : Options) (hints : Hints) where
  outcome : Outcome
  lowered : Module
  success : (Module.lower options hints).run s.analysed = .ok outcome lowered

end ModuleLowering
