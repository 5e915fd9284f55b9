import ModuleLowering.Grammar.Expression

/-!
Statements and declarations that bind names.
-/

set_option autoImplicit false

namespace ModuleLowering.Parse

section
variable (g : Goal → Parse Node)

def block : Parse Node := do
  let s ← start
  punct "\x7b"
  let ns ← untilClosed "\x7d" (g .statement)
  node .block s ns

def needsNoValue (kind : VariableKind) (p : Node) : Bool :=
  match kind, p.form with
  | .functionScoped, .binder .. | .blockScoped, .binder .. => true
  | _, _ => false

/-- One declarator. In the head of a loop the value may be missing. -/
def declarator (kind : VariableKind) (inHead : Bool) : Parse Node := do
  let s ← start
  let p ← g .pattern
  let isDefinite ← if (← dialect).hasTypes && !(← cursor).lineBreak then skipPunct "!"
    else pure false
  let t ← annotation g
  let value ← if ← isPunct "=" then initializer g else pure Node.absent
  let a ← around
  guard (inHead || a.isAmbient || !value.isAbsent || needsNoValue kind p)
  node (.declarator isDefinite) s [p, t, value]

def declarators (kind : VariableKind) (inHead : Bool) (s : Nat) : Parse Node := do
  let first ← declarator g kind inHead
  let ds ← loop [first] fun acc => do
    if ← skipPunct "," then
      let d ← declarator g kind inHead
      return (d :: acc, true)
    else return (acc, false)
  node (.varDecl kind false) s ds.reverse

/-- The kind of variables that are declared here, and how many words say so. -/
def variableKindHere? (c : Cursor) : Option (VariableKind × Nat) :=
  let next := c.advance
  match c.token with
  | .word "var" false => some (.functionScoped, 1)
  | .word "const" false => some (.constant, 1)
  | .word "let" false =>
    match next.token with
    | .punct "[" | .punct "\x7b" => some (.blockScoped, 1)
    | .word w _ => if isReserved w then none else some (.blockScoped, 1)
    | _ => none
  | .word "using" false =>
    if !next.lineBreak && isPlainWord next.token && next.token != .word "of" false
      then some (.disposable, 1) else none
  | .word "await" false =>
    if c.around.inAsync && next.token == .word "using" false && !next.lineBreak &&
        isPlainWord next.advance.token && !next.advance.lineBreak then some (.asyncDisposable, 2)
    else none
  | _ => none

def skipTokens : Nat → Parse Unit
  | 0 => Parse.pure ()
  | n + 1 => do
    advance
    skipTokens n

def variableStatement (kind : VariableKind) (words : Nat) : Parse Node := do
  let s ← start
  skipTokens words
  match ← declarators g kind false s with
  | .mk form _ ds =>
    semicolon
    node form s ds

/-- The statement under a condition, a loop or a label. Declarations need a block around them. -/
def subStatement : Parse Node := do
  let n ← g .statement
  match n.form with
  | .varDecl kind _ => guard (kind == .functionScoped)
  | .classDef _ => fail
  | .function traits => guard !(traits.isAsync || traits.isGenerator)
  | .importDecl .. | .exportNamed _ | .exportFrom .. | .exportDeclaration | .exportDefault
  | .exportAll .. => fail
  | _ => pure ()
  return n

def condition : Parse Node := do
  punct "("
  let e ← inBrackets (g .expression)
  punct ")"
  return e

def ifStatement : Parse Node := do
  let s ← start
  keyword "if"
  let test ← condition g
  let yes ← subStatement g
  let no ← if ← skipWord "else" then subStatement g else pure Node.absent
  node .ifStmt s [test, yes, no]

def forRest (s : Nat) (init : Node) : Parse Node := do
  punct ";"
  let test ← if ← isPunct ";" then pure Node.absent else inBrackets (g .expression)
  punct ";"
  let update ← if ← isPunct ")" then pure Node.absent else inBrackets (g .expression)
  punct ")"
  let b ← subStatement g
  node .forStmt s [init, test, update, b]

def forEach (s : Nat) (isAwait : Bool) (left : Node) : Parse Node := do
  if ← skipWord "of" then
    let right ← inBrackets (g .assignment)
    punct ")"
    let b ← subStatement g
    node (.forOf isAwait) s [left, right, b]
  else
    guard !isAwait
    keyword "in"
    let right ← inBrackets (g .expression)
    punct ")"
    let b ← subStatement g
    node .forIn s [left, right, b]

def forStatement : Parse Node := do
  let s ← start
  keyword "for"
  let isAwait ← if (← around).inAsync then skipWord "await" else pure false
  punct "("
  let c ← cursor
  if c.token == .punct ";" then
    guard !isAwait
    forRest g s Node.absent
  else
    let headStart := c.start
    match variableKindHere? c with
    | some (kind, words) =>
      skipTokens words
      let ds ← within (fun a => { a with allowIn := false, beforeColon := false })
        (declarators g kind true headStart)
      if (← isWord "of") || (← isWord "in") then
        forEach g s isAwait ds
      else
        guard !isAwait
        guard (ds.parts.all fun d => !(d.parts.getLastD Node.absent).isAbsent ||
          (d.parts.head?.map (needsNoValue kind)).getD false)
        forRest g s ds
    | none =>
      let e ← within (fun a => { a with allowIn := false, beforeColon := false }) (g .expression)
      if (← isWord "of") || (← isWord "in") then
        guard (isAwait || !(c.token == .word "async" false && c.advance.token == .word "of" false))
        match e.toTarget? with
        | some t => forEach g s isAwait t
        | none => fail
      else
        guard !isAwait
        forRest g s e

def whileStatement : Parse Node := do
  let s ← start
  keyword "while"
  let test ← condition g
  let b ← subStatement g
  node .whileStmt s [test, b]

def doStatement : Parse Node := do
  let s ← start
  keyword "do"
  let b ← subStatement g
  keyword "while"
  let test ← condition g
  let _ ← skipPunct ";"
  node .doWhile s [b, test]

def withStatement : Parse Node := do
  let s ← start
  keyword "with"
  let object ← condition g
  let b ← subStatement g
  node .withStmt s [object, b]

def switchCase : Parse Node := do
  let s ← start
  let test ← if ← skipWord "default" then pure Node.absent
    else do
      keyword "case"
      inBrackets (g .expression)
  punct ":"
  let ns ← loop ([] : List Node) fun acc => do
    if (← isWord "case") || (← isWord "default") || (← isPunct "\x7d") then return (acc, false)
    let n ← g .statement
    return (n :: acc, true)
  node .switchCase s (test :: ns.reverse)

def switchStatement : Parse Node := do
  let s ← start
  keyword "switch"
  let d ← condition g
  punct "\x7b"
  let cases ← untilClosed "\x7d" (switchCase g)
  guard ((cases.filter fun c => (c.parts.headD Node.absent).isAbsent).length ≤ 1)
  node .switchStmt s (d :: cases)

def catchClause : Parse Node := do
  let s ← start
  keyword "catch"
  let (p, t) ← if ← skipPunct "(" then do
      let p ← g .pattern
      let t ← annotation g
      punct ")"
      pure (p, t)
    else pure (Node.absent, Node.absent)
  let b ← g .block
  node .catchClause s [p, t, b]

def tryStatement : Parse Node := do
  let s ← start
  keyword "try"
  let b ← g .block
  let handler ← if ← isWord "catch" then catchClause g else pure Node.absent
  let final ← if ← skipWord "finally" then g .block else pure Node.absent
  guard !(handler.isAbsent && final.isAbsent)
  node .tryStmt s [b, handler, final]

def returnStatement : Parse Node := do
  let s ← start
  guard (← around).inFunction
  keyword "return"
  let c ← cursor
  let isBare := c.lineBreak || c.token == .punct ";" || c.token == .punct "\x7d" ||
    c.token == .endOfText
  let e ← if isBare then pure Node.absent else inBrackets (g .expression)
  semicolon
  node .returnStmt s [e]

def throwStatement : Parse Node := do
  let s ← start
  keyword "throw"
  guard !(← cursor).lineBreak
  let e ← inBrackets (g .expression)
  semicolon
  node .throwStmt s [e]

def jump (word : String) (form : Option String → Form) : Parse Node := do
  let s ← start
  keyword word
  let c ← cursor
  let label ← if !c.lineBreak && isPlainWord c.token then some <$> variableName else pure none
  semicolon
  node (form label) s []

def expressionStatement : Parse Node := do
  let s ← start
  let e ← inBrackets (g .expression)
  semicolon
  node .expression s [e]

def labeledStatement : Parse Node := do
  let s ← start
  let label ← variableName
  punct ":"
  let b ← subStatement g
  node (.labeled label) s [b]

def functionDeclaration (nameRequired : Bool) : Parse Node := do
  let s ← start
  let isAsync ← skipWord "async"
  keyword "function"
  functionRest g .declaration isAsync nameRequired s

/-- A class declaration. A class without a name is let through. -/
def classDeclaration : Parse Node := g (.classDef false)

def plainStatement : Parse Node := do
  let s ← start
  let c ← cursor
  let next := c.advance
  match c.token with
  | .punct "\x7b" => g .block
  | .punct ";" => advance; node .empty s []
  | .word w false =>
    match variableKindHere? c with
    | some (kind, words) => variableStatement g kind words
    | none =>
      match w with
      | "if" => ifStatement g
      | "for" => forStatement g
      | "while" => whileStatement g
      | "do" => doStatement g
      | "switch" => switchStatement g
      | "try" => tryStatement g
      | "return" => returnStatement g
      | "throw" => throwStatement g
      | "break" => jump "break" .breakStmt
      | "continue" => jump "continue" .continueStmt
      | "with" => withStatement g
      | "debugger" => advance; semicolon; node .debugger s []
      | "function" => functionDeclaration g true
      | "class" => classDeclaration g
      | _ =>
        if w == "async" && next.token == .word "function" false && !next.lineBreak
          then functionDeclaration g true
        else if isPlainWord c.token && next.token == .punct ":" then labeledStatement g
        else expressionStatement g
  | .word _ true => if next.token == .punct ":" then labeledStatement g else expressionStatement g
  | _ => expressionStatement g

end

end ModuleLowering.Parse
