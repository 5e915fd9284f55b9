import ModuleLowering.Scope.Context
import ModuleLowering.Tree.Names

/-!
Scope analysis: first all declarations are entered into the table, in source order, and then every
occurrence of a name is looked up.
-/

set_option autoImplicit false

namespace ModuleLowering

namespace ScopeContext

def declare (c : ScopeContext) (kind : DeclarationKind) (name : String) (t : ScopeTable) :
    Symbol × ScopeTable :=
  if kind = .varName then t.hoist c.passed c.varHome name
  else
    let (s, t') := t.declare c.home name kind
    (s, t'.reserve c.alsoIn name s)

end ScopeContext

mutual

/-- Enters the declarations of a tree; each declared name learns its symbol. -/
def Node.declare (c : ScopeContext) (scope : ScopeId) : Node → StateM ScopeTable Node
  | .mk f s ps => do
    let f' ← match f with
      | .binder name _ =>
        match c.kind with
        | some kind => do
          let symbol ← modifyGet (c.declare kind name)
          pure (Form.binder name (some symbol))
        | none => pure f
      | .enumMember _ => do
        let _ ← modifyGet (c.declare .enumMember ((ps.head?.map Node.nameText).getD ""))
        pure f
      | _ => pure f
    let ps' ← Node.declareParts c scope f ps 0 ps
    return .mk f' s ps'

def Node.declareParts (c : ScopeContext) (scope : ScopeId) (f : Form) (all : List Node) (i : Nat) :
    List Node → StateM ScopeTable (List Node)
  | [] => return []
  | p :: ps => do
    let p' ← p.declare (c.part scope f all i) (i :: scope)
    let ps' ← Node.declareParts c scope f all (i + 1) ps
    return p' :: ps'

end

def ScopeTable.refer (t : ScopeTable) (c : ScopeContext) (name : String) (meaning : Meaning) :
    Reference :=
  match t.lookup c.chain name meaning with
  | some s => .symbol s
  | none => .global

def Form.resolve (t : ScopeTable) (c : ScopeContext) : Form → Form
  | .ident name _ => .ident name (t.refer c name c.meaning)
  | .target name _ => .target name (t.refer c name .value)
  | .tagRef name _ => .tagRef name (t.refer c name .value)
  | .mention name _ meaning =>
    .mention name (if name = "this" then .none else t.refer c name meaning) meaning
  | f => f

mutual

def Node.resolve (t : ScopeTable) (c : ScopeContext) (scope : ScopeId) : Node → Node
  | .mk f s ps => .mk (f.resolve t c) s (Node.resolveParts t c scope f ps 0 ps)

def Node.resolveParts (t : ScopeTable) (c : ScopeContext) (scope : ScopeId) (f : Form)
    (all : List Node) (i : Nat) :
    List Node → List Node
  | [] => []
  | p :: ps =>
    p.resolve t (c.part scope f all i) (i :: scope) :: Node.resolveParts t c scope f all (i + 1) ps

end

def Form.unresolved? : Form → Option String
  | .ident name .global | .target name .global | .tagRef name .global | .mention name .global _ =>
    some name
  | _ => none

mutual

def Node.unresolved : Node → List String
  | .mk f _ ps => f.unresolved?.toList ++ Node.unresolvedInParts ps

def Node.unresolvedInParts : List Node → List String
  | [] => []
  | p :: ps => p.unresolved ++ Node.unresolvedInParts ps

end

structure Module where
  program : Node
  scopes : ScopeTable

def Module.analyse (isStrict : Bool) (program : Node) : Module :=
  let strictHere := isStrict || match program.form with
    | .program _ ds => ds.any (·.raw == "use strict")
    | _ => false
  let c := ScopeContext.program strictHere
  let (declared, table) := (program.declare c []).run .empty
  ⟨declared.resolve table c [], table⟩

/-- The names that must not be made up: those of all symbols, and those that are used without being
declared. -/
def Module.takenNames (m : Module) : List String := m.scopes.symbolNames ++ m.program.unresolved

end ModuleLowering
