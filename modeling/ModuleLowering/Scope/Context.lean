import ModuleLowering.Scope.Table

/-!
Which scopes constructs open, and where the names below them are declared and looked up.
-/

set_option autoImplicit false

namespace ModuleLowering

structure ScopeContext where
  chain : List ScopeId
  home : ScopeId
  /-- A second scope in which they count as declared: the body, for parameters. -/
  alsoIn : List ScopeId
  /-- The scopes a `var` passes, innermost first, and the one it reaches. -/
  passed : List ScopeId
  varHome : ScopeId
  /-- What the next names are declared as; nothing in signatures. -/
  kind : Option DeclarationKind
  /-- The conditional type around, which `infer` declares names for. -/
  conditional : Option ScopeId
  meaning : Meaning
  isStrict : Bool

namespace ScopeContext

def program (isStrict : Bool) : ScopeContext :=
  ⟨[[]], [], [], [], [], none, none, .value, isStrict⟩

def block (c : ScopeContext) (scope : ScopeId) : ScopeContext :=
  { c with chain := scope :: c.chain, home := scope, alsoIn := [], passed := scope :: c.passed }

/-- Inside a construct that also keeps `var` to itself. -/
def closed (c : ScopeContext) (scope : ScopeId) : ScopeContext :=
  { c with chain := scope :: c.chain, home := scope, alsoIn := [], passed := [], varHome := scope }

def declaring (c : ScopeContext) (kind : DeclarationKind) : ScopeContext :=
  { c with kind := some kind }

end ScopeContext

def Node.hasUseStrict : Node → Bool
  | .mk (.body ds) _ _ => ds.any (·.raw == "use strict")
  | _ => false

def Node.isSimpleParameters : Node → Bool
  | .mk .parameters _ ps => ps.all fun p => match p with
    | .mk (.parameter _) _ (.mk (.binder ..) _ _ :: _ :: value :: _) => value.isAbsent
    | _ => false
  | _ => false

mutual

def Node.isInstantiated : Node → Bool
  | .mk (.namespaceBody _) _ ns => anyInstantiated ns
  | .mk (.namespaceDecl ..) _ [_, body] => body.isInstantiated
  | .mk .exportDeclaration _ [d] => d.isInstantiated
  | .mk .interface _ _ => false
  | .mk (.typeAlias _) _ _ => false
  | .mk .absent _ _ => true
  | .mk _ _ _ => true

def anyInstantiated : List Node → Bool
  | [] => false
  | n :: ns => n.isInstantiated || anyInstantiated ns

end

namespace ScopeContext

/-- The part of a function with the given number of parts before its body: parameters and types see
the parameters, and the body sees what it declares besides. -/
def functionPart (c : ScopeContext) (scope : ScopeId) (bodyIndex : Nat) (isUnique : Bool)
    (i : Nat) : ScopeContext :=
  let inner := c.closed scope
  let bodyScope := bodyIndex :: scope
  if i = bodyIndex then inner.closed bodyScope
  else { inner with
    alsoIn := [bodyScope]
    kind := some (if isUnique then .uniqueParameter else .parameter) }

/-- What holds for the `i`-th part of a construct. `scope` names the scope the construct opens, if
it opens one. -/
def part (c : ScopeContext) (scope : ScopeId) (form : Form) (parts : List Node) (i : Nat) :
    ScopeContext :=
  match form with
  | .function t =>
    let isStrict := c.isStrict || (parts.getD 4 Node.absent).hasUseStrict
    let isUnique := isStrict || t.role == .method || !(parts.getD 2 Node.absent).isSimpleParameters
    let around := { c with isStrict }
    if t.role == .expression then
      -- The name of a function expression has a scope of its own around the function.
      let named := around.closed (0 :: scope)
      if i = 0 then named.declaring .function else named.functionPart scope 4 isUnique i
    else if i = 0 then around.declaring .function
    else around.functionPart scope 4 isUnique i
  | .arrow .. =>
    { c with isStrict := c.isStrict || (parts.getD 3 Node.absent).hasUseStrict }.functionPart
      scope 3 true i
  | .classDef t =>
    let inner := { c.block scope with isStrict := true }
    if i = 0 then (if t.isExpression then inner else c).declaring .classDef
    else if i ≤ 5 then inner else c
  | .block | .forStmt | .forIn | .forOf _ => c.block scope
  | .switchStmt => if i = 0 then c else c.block scope
  | .staticBlock => c.closed scope
  | .catchClause =>
    -- The parameter belongs to the block; what it is taken apart with is looked up outside.
    let inner := c.block scope
    if i = 0 then
      let isName := (parts.getD 0 Node.absent).form matches .binder ..
      { inner with home := 2 :: scope, kind := some (if isName then .catchName else .catchPattern) }
    else inner
  | .varDecl kind _ => c.declaring (if kind == .functionScoped then .varName else .lexical)
  | .importDecl isType _ _ => c.declaring (if isType then .typeImport else .importName)
  | .importNamed isType => if isType then c.declaring .typeImport else c
  | .importEquals => c.declaring .importName
  | .typeParameter _ => c.declaring .typeParameter
  | .inferType => { c with home := c.conditional.getD c.home }
  | .interface => if i = 0 then c.declaring .interface else c.block scope
  | .heritage => { c with meaning := .type }
  | .typeAlias _ => if i = 0 then c.declaring .typeAlias else c.block scope
  | .enumDecl isConst _ =>
    if i = 0 then c.declaring (if isConst then .constEnum else .enumDecl) else c.block scope
  | .namespaceDecl .. =>
    let isValue := (parts.getD 1 Node.absent).isInstantiated
    if i = 0 then c.declaring (if isValue then .valueNamespace else .typeNamespace)
      else c.closed scope
  | .globalDecl _ => c.closed scope
  | .functionType | .constructorType _ | .methodSignature .. | .callSignature _ =>
    { c.block scope with kind := none }
  | .mappedType .. => (c.block scope).declaring .typeParameter
  | .conditionalType =>
    if i = 1 || i = 2 then { c.block scope with conditional := some scope } else c
  | _ => c

end ScopeContext

end ModuleLowering
