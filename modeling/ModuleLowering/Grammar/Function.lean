import ModuleLowering.Grammar.TypeRules

/-!
Functions, classes and object members.
-/

set_option autoImplicit false

namespace ModuleLowering.Parse

section
variable (g : Goal → Parse Node)

def bodyItems (done : Parse Bool) : Parse (List Directive × List Node) := do
  let (directives, statements, _) ← loop (([], [], true) : List Directive × List Node × Bool)
    fun (directives, statements, isHead) => do
      if ← done then return ((directives, statements, isHead), false)
      let c ← cursor
      let n ← g .statement
      match isHead, c.token, n with
      | true, .string _ raw, .mk .expression span [.mk (.string _) _ _] =>
        return ((⟨raw, span⟩ :: directives, statements, true), true)
      | _, _, _ => return ((directives, n :: statements, false), true)
  return (directives.reverse, statements.reverse)

def inFunction {α : Type} (isAsync isGenerator : Bool) (p : Parse α) : Parse α :=
  within (fun a => { a with allowIn := true, inGenerator := isGenerator, inAsync := isAsync,
                            inFunction := true, beforeColon := false }) p

def functionBody (isAsync isGenerator : Bool) : Parse Node :=
  inFunction isAsync isGenerator do
    let s ← start
    punct "\x7b"
    let (directives, statements) ← bodyItems g (skipPunct "\x7d")
    node (.body directives) s statements

/-- A body, or the end of a signature without one, which needs types. -/
def functionBody? (isAsync isGenerator : Bool) : Parse Node := do
  if ← isPunct "\x7b" then functionBody g isAsync isGenerator
  else
    guard (← dialect).hasTypes
    semicolon
    return Node.absent

def functionTail (traits : FunctionTraits) (s : Nat) (name : Node) : Parse Node := do
  let tps ← typeParameters? g
  let ps ← inFunction traits.isAsync traits.isGenerator (parameters g)
  let r ← resultAnnotation g
  let b ← functionBody? g traits.isAsync traits.isGenerator
  node (.function traits) s [name, tps, ps, r, b]

def functionRest (role : FunctionRole) (isAsync : Bool) (nameRequired : Bool) (s : Nat) :
    Parse Node := do
  let isGenerator ← skipPunct "*"
  let isName := match ← token with
    | .word .. => true
    | _ => false
  let name ← if isName then
      (if role == .expression then inFunction isAsync isGenerator binder else binder)
    else if nameRequired then fail else pure Node.absent
  functionTail g ⟨role, isAsync, isGenerator, false, false⟩ s name

def methodTail (isAsync isGenerator : Bool) : Parse Node := do
  let s ← start
  functionTail g ⟨.method, isAsync, isGenerator, false, false⟩ s Node.absent

/-- Whether the token after a word like `async` or `get` makes that word a modifier. -/
def modifiesKey (c : Cursor) : Bool := startsKey c || c.token == .punct "*"

def methodModifiers : Parse (MethodKind × Bool × Bool) := do
  let c ← cursor
  let next := c.advance
  let isAsync := c.token == .word "async" false && modifiesKey next && !next.lineBreak
  if isAsync then advance
  let isGenerator ← skipPunct "*"
  if !isAsync && !isGenerator && startsKey next then
    if c.token == .word "get" false then
      advance
      return (.getter, false, false)
    if c.token == .word "set" false then
      advance
      return (.setter, false, false)
  return (.plain, isAsync, isGenerator)

def objectMember : Parse Node := do
  let s ← start
  if ← skipPunct "..." then
    let e ← g .assignment
    node .spread s [e]
  else
    let c ← cursor
    let isShorthand := match c.token with
      | .word .. => [",", "\x7d", "="].any fun p => c.advance.token == Token.punct p
      | _ => false
    if isShorthand then
      let key ← anyWord
      set c
      let value ← identifier
      if ← isPunct "=" then
        let d ← inBrackets (initializer g)
        node .shorthandDefault s [value, d]
      else node (.property true false) s [key, value]
    else
      let (kind, isAsync, isGenerator) ← methodModifiers
      let (key, isComputed) ← propertyKey g
      guard !(key.form matches .privateWord _)
      if kind != MethodKind.plain || isAsync || isGenerator || (← isPunct "(") ||
        (← isPunct "<") then
        let f ← methodTail g isAsync isGenerator
        guard !(f.parts.getLastD Node.absent).isAbsent
        node (.accessor kind isComputed) s [key, f]
      else
        punct ":"
        let value ← inBrackets (g .assignment)
        node (.property false isComputed) s [key, value]

def memberWords : List String :=
  ["declare", "public", "private", "protected", "abstract", "static", "readonly",
    "override", "accessor"]

/-- The modifiers of a class member. A modifier stands on the line of what it modifies. -/
def memberModifiers : Parse Modifiers := do
  let types := (← dialect).hasTypes
  loop Modifiers.none fun m => do
    let c ← cursor
    let next := c.advance
    match c.token with
    | .word w false =>
      let isModifier := memberWords.contains w && (types || w == "static" || w == "accessor") &&
        (modifiesKey next) && (w == "static" || !next.lineBreak)
      if isModifier then
        advance
        return (m.add w, true)
      else return (m, false)
    | _ => return (m, false)

def classMember : Parse Node := do
  let s ← start
  let ds ← decorators g
  let c ← cursor
  if c.token == .word "static" false && c.advance.token == .punct "\x7b" then
    advance
    punct "\x7b"
    let statements ← within
      (fun a => { a with
        allowIn := true, inGenerator := false, inAsync := true, inFunction := false
        beforeColon := false })
      (untilClosed "\x7d" (g .statement))
    node .staticBlock s statements
  else
    let m ← memberModifiers
    let types := (← dialect).hasTypes
    if types && atIndexSignature (← cursor) then
      let n ← indexSignature g m s
      memberEnd
      return n
    let (kind, isAsync, isGenerator) ← methodModifiers
    let (key, isComputed) ← propertyKey g
    let isOptional ← if types then skipPunct "?" else pure false
    let isDefinite ← if types && !isOptional && !(← cursor).lineBreak then skipPunct "!"
      else pure false
    let m := { m with isComputed, isOptional, isDefinite }
    if kind != MethodKind.plain || isAsync || isGenerator || (← isPunct "(") ||
      (types && (← isPunct "<")) then
      let f ← methodTail g isAsync isGenerator
      node (.method kind m) s (key :: f :: ds)
    else
      let t ← annotation g
      let value ← if ← isPunct "=" then
          within
            (fun a => { a with
              allowIn := true, beforeColon := false, inAsync := false, inGenerator := false })
            (initializer g)
        else pure Node.absent
      semicolon
      node (.field m) s (key :: t :: value :: ds)

def baseType : Parse (Node × Node) := do
  let e ← g .postfixed
  match e with
  | .mk .instantiation _ [inner, args] => return (inner, args)
  | _ =>
    let args ← if (← dialect).hasTypes then typeArgumentsHere g else pure Node.absent
    return (e, args)

def superclass : Parse (Node × Node) := do
  if ← skipWord "extends" then baseType g else return (Node.absent, Node.absent)

def implementsList : Parse Node := do
  let s ← start
  if (← dialect).hasTypes && (← skipWord "implements") then
    let one : Parse Node := do
      let s ← start
      let e ← entityName .type
      let args ← typeArgumentsHere g
      node .typeReference s [e, args]
    let first ← one
    let ts ← loop [first] fun acc => do
      if ← skipPunct "," then
        let t ← one
        return (t :: acc, true)
      else return (acc, false)
    node .implementsList s ts.reverse
  else return Node.absent

def classRest (traits : ClassTraits) (ds : List Node) (s : Nat) : Parse Node := do
  let c ← cursor
  let isName := match c.token with
    | .word w _ => w != "extends" && !(w == "implements" && c.dialect.hasTypes &&
        (c.advance.token matches .word ..))
    | _ => false
  let name ← if isName then binder else pure Node.absent
  let tps ← typeParameters? g
  let (base, baseArgs) ← superclass g
  let impls ← implementsList g
  let bodyStart ← start
  punct "\x7b"
  let members ← loop ([] : List Node) fun acc => do
    if ← skipPunct "\x7d" then return (acc, false)
    if ← skipPunct ";" then return (acc, true)
    let m ← classMember g
    return (m :: acc, true)
  let body ← node .classBody bodyStart members.reverse
  node (.classDef traits) s ([name, tps, base, baseArgs, impls, body] ++ ds)

def classAt (isExpression : Bool) : Parse Node := do
  let s ← start
  let ds ← decorators g
  let isAbstract ← if (← dialect).hasTypes then skipWord "abstract" else pure false
  keyword "class"
  classRest g ⟨isExpression, isAbstract, false⟩ ds s

end

end ModuleLowering.Parse
