import ModuleLowering.Lower.FreshName
import ModuleLowering.Scope.Resolve

/-!
Renaming of a module's own `module`, `exports` and `require`, so that made-up code reaches the
objects of the runtime under these names.
-/

set_option autoImplicit false

namespace ModuleLowering

structure Renaming where
  entries : List (Symbol × String)
  deriving Repr

namespace Renaming

def isEmpty (r : Renaming) : Bool := r.entries.isEmpty

/-- What a symbol that was called `name` is called now. -/
def nameOf (r : Renaming) (s : Symbol) (name : String) : String :=
  ((r.entries.find? fun (s', _) => s' = s).map Prod.snd).getD name

def referred (r : Renaming) (ref : Reference) (name : String) : String :=
  match ref with
  | .symbol s => r.nameOf s name
  | _ => name

end Renaming

def Form.rename (r : Renaming) : Form → Form
  | .ident name ref => .ident (r.referred ref name) ref
  | .target name ref => .target (r.referred ref name) ref
  | .tagRef name ref => .tagRef (r.referred ref name) ref
  | .mention name ref meaning => .mention (r.referred ref name) ref meaning
  | .binder name (some s) => .binder (r.nameOf s name) (some s)
  | f => f

/-- A property or binding that is written as one name needs its key written out once the two names
differ. -/
def Form.expandShorthand (f : Form) (parts : List Node) : Form :=
  match f, parts with
  | .property true computed, [.mk (.word key) _ _, .mk (.ident name _) _ _] =>
    .property (key = name) computed
  | .bindingProperty true computed, [.mk (.word key) _ _, .mk (.binder name _) _ _] =>
    .bindingProperty (key = name) computed
  | f, _ => f

mutual

def Node.rename (r : Renaming) : Node → Node
  | .mk f s ps =>
    let ps' := Node.renameParts r ps
    .mk ((f.rename r).expandShorthand ps') s ps'

def Node.renameParts (r : Renaming) : List Node → List Node
  | [] => []
  | p :: ps => p.rename r :: Node.renameParts r ps

end

/-- The names by which made-up code reaches the runtime. -/
def runtimeNames : List String := ["module", "exports", "require"]

def Renaming.choose (scopes : ScopeTable) : List String → TakenNames → Renaming × TakenNames
  | [], taken => (⟨[]⟩, taken)
  | name :: names, taken =>
    match scopes.root? name with
    | some s =>
      let (fresh, taken) := taken.generate name
      let (r, taken) := choose scopes names taken
      (⟨(s, fresh) :: r.entries⟩, taken)
    | none => choose scopes names taken

def ScopeTable.rename (t : ScopeTable) (r : Renaming) : ScopeTable :=
  r.entries.foldl (fun t (s, name) => t.renameRoot s name) t

def Module.rename (m : Module) (r : Renaming) : Module := ⟨m.program.rename r, m.scopes.rename r⟩

end ModuleLowering
