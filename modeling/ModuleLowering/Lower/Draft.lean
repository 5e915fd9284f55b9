import ModuleLowering.Error
import ModuleLowering.Lower.FreshName
import ModuleLowering.Lower.Item
import ModuleLowering.Options
import ModuleLowering.Text.ModulePath

/-!
The state of a module while its declarations are taken apart.
-/

set_option autoImplicit false

namespace ModuleLowering

inductive Event where
  | typeImportSkipped (source : String)
  | imported (source : String) (specifiers : Nat)
  | required (source binding : String)
  | importLowered (source binding : String) (specifiers : Nat)
  | typeDefaultSkipped
  | defaultExported
  | typeExportSkipped (source : Option String)
  | namespaceExported (source exported : String)
  | allExported (source : String)
  | reexported (source name exported : String)
  | exported (name exported : String)
  deriving DecidableEq, Repr

structure Draft where
  options : Options
  taken : TakenNames
  /-- Helpers in use with their names, in order of first use. -/
  helpers : List (Helper × String)
  imports : ImportTable
  exports : ExportTable
  redirects : RedirectTable
  requires : RequireTable
  /-- Exports that are not set before the rest of the module runs. -/
  predeclared : NameList
  top : List (Priority × Item)
  body : List (Priority × Item)
  hasImports : Bool
  hasExports : Bool
  hasDefault : Bool
  hasNamed : Bool
  log : List Event

namespace Draft

def start (options : Options) (taken : TakenNames) : Draft :=
  ⟨options, taken, [], .empty, .empty, .empty, .empty, .empty, [], [], false, false,
    false, false, []⟩

def keep (r : Draft) (priority : Priority) (item : Item) : Draft :=
  { r with body := r.body ++ [(priority, item)] }

def hoist (r : Draft) (priority : Priority) (item : Item) : Draft :=
  { r with top := r.top ++ [(priority, item)] }

def note (r : Draft) (e : Event) : Draft := { r with log := r.log ++ [e] }

def helper (r : Draft) (h : Helper) : String × Draft :=
  match r.helpers.find? fun (h', _) => h' = h with
  | some (_, name) => (name, r)
  | none =>
    let (name, taken) := r.taken.generate h.hint
    (name, { r with taken, helpers := r.helpers ++ [(h, name)] })

/-- The variable that holds a required module, declared at its first use. -/
def require (r : Draft) (source : String) (priority : Priority) (span : Option Span) :
    String × Draft :=
  match r.requires.get? source with
  | some binding => (binding, r)
  | none =>
    let (binding, taken) := r.taken.generate (moduleBasename source)
    let r := { r with taken, requires := r.requires.insert source binding }
    (binding, (r.hoist priority (.requireBinding binding source span)).note
      (.required source binding))

def noteExportName (r : Draft) (exported : String) : Draft :=
  if exported = "default" then { r with hasDefault := true } else { r with hasNamed := true }

def exportBehind (r : Draft) (name exported : String) (value : Node) : Draft :=
  keep
    { r with exports := r.exports.add name exported, predeclared := r.predeclared.insert exported }
    Priority.ordinary (.exportValue exported value none)

end Draft

end ModuleLowering
