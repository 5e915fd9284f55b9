import ModuleLowering.Tree.Form

/-!
The table of a program's declared names. Names are declared one after the other; a second
declaration of a name in a scope shares the symbol of the first, unless the two clash.
-/

set_option autoImplicit false

namespace ModuleLowering

/-- A scope is told by the way from the program down to the construct that opens it, innermost
step first. The program's own scope is the empty way. -/
abbrev ScopeId := List Nat

inductive DeclarationKind where
  | varName
  | lexical
  | classDef
  | function
  | parameter
  /-- A parameter in a list that allows no name twice. -/
  | uniqueParameter
  | catchName
  | catchPattern
  | importName
  | typeImport
  | typeAlias
  | interface
  | enumDecl
  | constEnum
  | enumMember
  | typeParameter
  | valueNamespace
  | typeNamespace
  deriving DecidableEq, Repr

namespace DeclarationKind

def isValue : DeclarationKind → Bool
  | varName | lexical | classDef | function | parameter | uniqueParameter | catchName | catchPattern
  | enumDecl | constEnum | enumMember | valueNamespace => true
  | _ => false

def isType : DeclarationKind → Bool
  | classDef | interface | enumDecl | constEnum | enumMember | typeParameter | typeAlias => true
  | _ => false

/-- Kinds that a later `var` or function may redeclare. -/
def isFunctionWide : DeclarationKind → Bool
  | varName | parameter | uniqueParameter | catchName | function => true
  | _ => false

/-- Whether a declaration of kind `new` may not follow one of kind `old` in a scope. -/
def clashes (old new : DeclarationKind) : Bool :=
  match new with
  | lexical | catchPattern => old.isValue
  | varName | parameter | function =>
    old.isValue && !old.isFunctionWide && !(new == function && old == valueNamespace)
  | uniqueParameter => old.isValue && old != function
  | classDef => (old.isValue && old != valueNamespace) || old == typeAlias
  | catchName => false
  | importName | typeImport => old == importName || old == typeImport
  | typeAlias => old.isType
  | interface => old.isType && old != interface && old != classDef
  | enumDecl => (old.isValue || old.isType) && old != enumDecl && old != valueNamespace
  | constEnum => (old.isValue || old.isType) && old != constEnum
  | enumMember => old == enumMember
  | typeParameter => old.isType && old != typeParameter
  | valueNamespace => old.isValue && !([function, classDef, enumDecl, valueNamespace].contains old)
  | typeNamespace => false

def serves (kind : DeclarationKind) (meaning : Meaning) : Bool :=
  match meaning with
  | .value => kind.isValue || kind == importName
  | .type => kind.isType || [importName, typeImport, valueNamespace, typeNamespace].contains kind
  | .either => true

end DeclarationKind

structure Binding where
  scope : ScopeId
  name : String
  symbol : Symbol
  deriving DecidableEq, Repr

structure ScopeTable where
  /-- Newest first; at most one for a scope and name. -/
  bindings : List Binding
  /-- Names that a scope does not hold but must not declare otherwise: variables hoisted out of it,
  and the parameters around a function's body. -/
  reserved : List Binding
  /-- The symbols, each with every kind it was declared as, newest first. -/
  declared : List (Symbol × DeclarationKind)
  clash : Option String
  deriving Repr

namespace ScopeTable

def empty : ScopeTable := ⟨[], [], [], none⟩

private def find (bs : List Binding) (scope : ScopeId) (name : String) : Option Symbol :=
  (bs.find? fun b => b.scope == scope && b.name == name).map Binding.symbol

def binding? (t : ScopeTable) (scope : ScopeId) (name : String) : Option Symbol :=
  find t.bindings scope name

def existing? (t : ScopeTable) (scope : ScopeId) (name : String) : Option Symbol :=
  t.binding? scope name <|> find t.reserved scope name

def root? (t : ScopeTable) (name : String) : Option Symbol := t.binding? [] name

def kindsOf (t : ScopeTable) (s : Symbol) : List DeclarationKind :=
  t.declared.filterMap fun (s', k) => if s' = s then some k else none

def redeclare (t : ScopeTable) (s : Symbol) (name : String) (kind : DeclarationKind) : ScopeTable :=
  let clashing := (t.kindsOf s).any (·.clashes kind)
  { t with
    declared := (s, kind) :: t.declared
    clash := if clashing then t.clash <|> some name else t.clash }

def declare (t : ScopeTable) (scope : ScopeId) (name : String) (kind : DeclarationKind) :
    Symbol × ScopeTable :=
  match t.existing? scope name with
  | some s => (s, t.redeclare s name kind)
  | none =>
    let s : Symbol := ⟨scope, name⟩
    (s, { t with bindings := ⟨scope, name, s⟩ :: t.bindings, declared := (s, kind) :: t.declared })

def reserve (t : ScopeTable) (scopes : List ScopeId) (name : String) (s : Symbol) : ScopeTable :=
  { t with reserved := scopes.map (fun scope => ⟨scope, name, s⟩) ++ t.reserved }

def move (t : ScopeTable) (source target : ScopeId) (name : String) (s : Symbol) : ScopeTable :=
  { t with
    bindings := ⟨target, name, s⟩ ::
      t.bindings.filter fun b => !(b.scope == source && b.name == name) }

/-- Declares a `var`: it belongs to `home` and passes the scopes in between, innermost first. One
that meets a declaration of its name on the way shares that symbol, which then moves outwards. -/
def hoist (t : ScopeTable) (passed : List ScopeId) (home : ScopeId) (name : String) :
    Symbol × ScopeTable :=
  let met := passed.findSome? fun scope => (t.existing? scope name).map fun s => (scope, s)
  let (s, t') := match met with
    | some (scope, s) =>
      let t' := t.redeclare s name .varName
      (s, if (t.existing? home name).isSome then t' else t'.move scope home name s)
    | none => t.declare home name .varName
  (s, t'.reserve passed name s)

/-- The declaration an occurrence refers to: the innermost one around it that serves its meaning. -/
def lookup (t : ScopeTable) (chain : List ScopeId) (name : String) (meaning : Meaning) :
    Option Symbol :=
  chain.findSome? fun scope =>
    (t.binding? scope name).filter fun s => (t.kindsOf s).any (·.serves meaning)

def symbolNames (t : ScopeTable) : List String := t.declared.map fun (s, _) => s.name

def renameRoot (t : ScopeTable) (s : Symbol) (name : String) : ScopeTable :=
  { t with bindings := t.bindings.map fun b =>
      if b.scope = [] ∧ b.symbol = s then { b with name := name } else b }

end ScopeTable

end ModuleLowering
