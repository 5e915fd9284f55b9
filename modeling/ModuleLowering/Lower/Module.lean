import ModuleLowering.Lower.Live
import ModuleLowering.Lower.Scan
import ModuleLowering.Scope.Rename

/-!
The lowering of a module: its own uses of the runtime's names are renamed, its declarations taken
apart, and the bindings in what comes out made live.
-/

set_option autoImplicit false

namespace ModuleLowering

open MonadExcept (ofExcept)

structure Report where
  renamed : Nat
  requires : Nat
  exportedLocals : Nat
  redirectedLocals : Nat
  liveChanges : Nat
  hasModuleFlag : Bool
  deriving DecidableEq, Repr

structure Outcome where
  log : List Event
  report : Option Report
  deriving DecidableEq, Repr

namespace Module

def statements (m : Module) : List Node := m.program.parts

def withStatements (m : Module) (ns : List Node) : Module :=
  { m with program := .mk m.program.form m.program.span ns }

def hasModuleSyntax (m : Module) : Bool := m.statements.any Node.isModuleSyntax

/-- Makes the bindings in a module live, and counts the changes. Without a name to care for, the
module stays as it is. -/
def makeLive (m : Module) (redirects : RedirectTable) (exports : ExportTable) : Module × Nat :=
  if redirects.isEmpty && exports.isEmpty then (m, 0)
  else
    let l : LiveBindings := ⟨m.scopes, redirects, exports⟩
    let program := ((m.program.liveOnce l id true []).run []).run.1
    ({ m with program }, m.program.liveChanges l)

/-- Replaces the module by what its draft comes to. -/
def complete (m : Module) (renamed : Nat) (r : Draft) : EStateM Error Module Outcome := do
  let finished := m.withStatements (← ofExcept r.finish)
  let (live, changes) := finished.makeLive r.redirects r.exports
  set live
  return ⟨r.log, some
    ⟨renamed, r.requires.size, r.exports.size, r.redirects.size, changes, r.hasExports⟩⟩

/-- Lowers the module in place. Where an illegal export stops it, or a helper that cannot be read,
the statements are gone and the names are already changed. -/
def lower (options : Options) (hints : Hints) : EStateM Error Module Outcome := do
  let m ← get
  if !m.hasModuleSyntax then return ⟨[], none⟩
  let (names, taken) := Renaming.choose m.scopes runtimeNames ⟨m.takenNames⟩
  let renamed := if names.isEmpty then m else m.rename names
  set (renamed.withStatements [])
  let r ← ofExcept ((Draft.start options taken).scan hints renamed.statements)
  renamed.complete names.entries.length r.lowerImports

end Module

end ModuleLowering
