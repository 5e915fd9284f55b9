import ModuleLowering.Grammar.Function
import ModuleLowering.Grammar.RegExp
import ModuleLowering.Grammar.Tag

/-!
Expressions.
-/

set_option autoImplicit false

namespace ModuleLowering.Parse

section
variable (g : Goal → Parse Node)

def argument : Parse Node := do
  let s ← start
  if ← skipPunct "..." then
    let e ← g .assignment
    node .spread s [e]
  else g .assignment

def arguments : Parse (List Node) := do
  punct "("
  inBrackets (commaList ")" (argument g))

/-- The chunks and holes of a template from its first chunk on. An ill-formed escape is allowed
behind a tag only. -/
def templateLiteral (isTagged : Bool) : Parse Node := do
  let s ← start
  let (chunks, holes) ← loop (([], []) : List String × List Node) fun (chunks, holes) => do
    match ← token with
    | .template raw isWell isLast =>
      guard (isWell || isTagged)
      advance
      if isLast then return ((raw :: chunks, holes), false)
      let e ← inBrackets (g .expression)
      let c ← cursor
      guard (c.token == .punct "\x7d")
      set (c.reread fun cs => readTemplate true [] (cs.drop 1))
      return ((raw :: chunks, e :: holes), true)
    | _ => fail
  node (.template chunks.reverse) s holes.reverse

def markWrapped : Node → Node
  | .mk (.function traits) s ps => .mk (.function { traits with isWrapped := true }) s ps
  | .mk (.arrow isAsync isExpression _) s ps => .mk (.arrow isAsync isExpression true) s ps
  | n => n

/-- An expression in parentheses, which leave no node of their own. -/
def parenthesized : Parse Node := do
  let s ← start
  punct "("
  let e ← inBrackets (g .expression)
  punct ")"
  let c ← cursor
  set { c with wrapped := (s, c.lastStop) }
  return markWrapped e

def regExpLiteral : Parse Node := do
  let c ← cursor
  set (c.reread readRegExp)
  match ← token with
  | .regExp pattern flags =>
    guard (RegExp.isValid pattern flags)
    advance
    node (.regExp pattern flags) c.start []
  | _ => fail

def importExpression : Parse Node := do
  let s ← start
  keyword "import"
  if ← skipPunct "." then
    keyword "meta"
    node (.metaProperty "import.meta") s []
  else
    let args ← arguments g
    guard (args.length == 1 || args.length == 2)
    node .importCall s args

def primary : Parse Node := do
  let s ← start
  let c ← cursor
  match c.token with
  | .number value _ => advance; node (.number value) s []
  | .string value _ => advance; node (.string value) s []
  | .bigint digits => advance; node (.bigint digits) s []
  | .template .. => templateLiteral g false
  | .punct "(" => parenthesized g
  | .punct "[" =>
    advance
    let items ← inBrackets (arrayElements (argument g))
    node .array s items
  | .punct "\x7b" =>
    advance
    let items ← inBrackets (commaList "\x7d" (objectMember g))
    node .object s items
  | .punct "/" | .punct "/=" => regExpLiteral
  | .punct "@" => classAt g true
  | .punct "<" =>
    guard c.dialect.hasTags
    let e ← g .element
    punct ">"
    return e
  | .word "function" false => advance; functionRest g .expression false false s
  | .word "class" false => classAt g true
  | .word "this" false => advance; node .thisExpr s []
  | .word "super" false =>
    advance
    guard ((← isPunct ".") || (← isPunct "[") || (← isPunct "("))
    node .superExpr s []
  | .word "null" false => advance; node .nullLiteral s []
  | .word "true" false => advance; node (.boolean true) s []
  | .word "false" false => advance; node (.boolean false) s []
  | .word "new" false => advance; g .construct
  | .word "import" false => importExpression g
  | .word "async" false =>
    if c.advance.token == .word "function" false && !c.advance.lineBreak then
      advance
      advance
      functionRest g .expression true false s
    else identifier
  | _ => identifier

def endsTypeArguments (c : Cursor) : Bool :=
  match c.token with
  | .punct "(" | .template .. => true
  | .punct "<" | .punct ">" | .punct "+" | .punct "-" => false
  | .punct p => c.lineBreak || !(["[", "\x7b", "!", "~", "++", "--", "/", "/=", "@"].contains p)
  | .word w false =>
    c.lineBreak || ["in", "instanceof", "as", "satisfies", "extends", "implements", "of"].contains w
  | .word _ true | .privateWord _ | .string .. | .number .. | .bigint _ | .regExp .. => c.lineBreak
  | _ => true

def appliedTypes : Parse Node := do
  guard (← dialect).hasTypes
  let args ← typeArguments g
  guard (endsTypeArguments (← cursor))
  return args

def indexTail (isOptional : Bool) (s : Nat) (object : Node) : Parse Node := do
  punct "["
  let i ← inBrackets (g .expression)
  punct "]"
  node (.index isOptional) s [object, i]

def appliedTail (isChained : Bool) (s : Nat) (e : Node) : Parse Node := do
  let targs ← appliedTypes g
  match ← token with
  | .punct "(" =>
    let args ← arguments g
    node (.call false) s (e :: targs :: args)
  | .template .. =>
    guard !isChained
    let t ← templateLiteral g true
    node .tagged s [e, targs, t]
  | _ => node .instantiation s [e, targs]

def optionalTail (s : Nat) (e : Node) : Parse Node := do
  match ← token with
  | .punct "(" =>
    let args ← arguments g
    node (.call true) s (e :: Node.absent :: args)
  | .punct "[" => indexTail g true s e
  | .punct "<" =>
    guard (← dialect).hasTypes
    let targs ← typeArguments g
    let args ← arguments g
    node (.call true) s (e :: targs :: args)
  | _ =>
    let w ← memberName
    node (.member true) s [e, w]

/-- Accesses, calls and templates behind an expression. An optional access makes the whole a
chain. -/
def postfixTail (s : Nat) (first : Node) : Parse Node := do
  let (e, isChained) ← loop (first, false) fun (e, isChained) => do
    let c ← cursor
    match c.token with
    | .punct "." =>
      advance
      let w ← memberName
      return ((← node (.member false) s [e, w], isChained), true)
    | .punct "?." =>
      advance
      return ((← optionalTail g s e, true), true)
    | .punct "[" => return ((← indexTail g false s e, isChained), true)
    | .punct "(" =>
      let args ← arguments g
      return ((← node (.call false) s (e :: Node.absent :: args), isChained), true)
    | .template .. =>
      guard !isChained
      let t ← templateLiteral g true
      return ((← node .tagged s [e, Node.absent, t], isChained), true)
    | .punct "!" =>
      if c.dialect.hasTypes && !c.lineBreak then
        advance
        return ((← node .nonNull s [e], isChained), true)
      else return ((e, isChained), false)
    | .punct "<" =>
      match ← Parse.optional (appliedTail g isChained s e) with
      | some e' => return ((e', isChained), true)
      | none => return ((e, isChained), false)
    | _ => return ((e, isChained), false)
  if isChained then node .chain s [e] else return e

def postfixed : Parse Node := do
  let s ← start
  let e ← primary g
  postfixTail g s e

/-- The rest of a `new` expression: accesses bind to the class before the arguments do. -/
def construct : Parse Node := do
  let c ← cursor
  let s := c.lastStop - 3
  if ← skipPunct "." then
    keyword "target"
    node (.metaProperty "new.target") s []
  else
    let inner ← start
    guard !(← isWord "import")
    let base ← primary g
    let callee ← loop base fun e => do
      match ← token with
      | .punct "." =>
        advance
        let w ← memberName
        return (← node (.member false) inner [e, w], true)
      | .punct "[" => return (← indexTail g false inner e, true)
      | .template .. =>
        let t ← templateLiteral g true
        return (← node .tagged inner [e, Node.absent, t], true)
      | .punct "!" =>
        if (← dialect).hasTypes && !(← cursor).lineBreak then
          advance
          return (← node .nonNull inner [e], true)
        else return (e, false)
      | _ => return (e, false)
    guard !(← isPunct "?.")
    let targs ← (do guard (← isPunct "<"); appliedTypes g) <|> pure Node.absent
    let args ← if ← isPunct "(" then arguments g else pure []
    node .construct s (callee :: targs :: args)

def updateTarget (e : Node) : Parse Node :=
  match e.toSimpleTarget? with
  | some t => Parse.pure t
  | none => fail

def unary : Parse Node := do
  let s ← start
  let c ← cursor
  let isOp (op : UnaryOp) : Bool :=
    if op.isWord then c.token == .word op.text false else c.token == .punct op.text
  match UnaryOp.all.find? isOp with
  | some op =>
    advance
    let e ← g .unary
    node (.unary op) s [e]
  | none =>
    match c.token with
    | .punct "++" => prefixed .increment s
    | .punct "--" => prefixed .decrement s
    | .punct "<" =>
      if c.dialect.hasTypes && !c.dialect.hasTags then
        advance
        let t ← assertedType
        punct ">"
        let e ← g .unary
        node .typeAssertion s [t, e]
      else updated s
    | .word "await" false =>
      if c.around.inAsync then
        advance
        let e ← g .unary
        node .await s [e]
      else updated s
    | _ => updated s
where
  prefixed (op : UpdateOp) (s : Nat) : Parse Node := do
    advance
    let e ← g .unary
    let t ← updateTarget e
    node (.update op true) s [t]
  updated (s : Nat) : Parse Node := do
    let e ← g .postfixed
    let c ← cursor
    let op? := if c.lineBreak then none
      else if c.token == .punct "++" then some UpdateOp.increment
      else if c.token == .punct "--" then some UpdateOp.decrement else none
    match op? with
    | some op =>
      let t ← updateTarget e
      advance
      node (.update op false) s [t]
    | none => return e
  assertedType : Parse Node := do
    let s ← start
    if ← skipWord "const" then node (.typeWord "const") s [] else g .type

def operatorHere? (c : Cursor) : Option BinaryOp :=
  match c.token with
  | .punct p => BinaryOp.ofText? p
  | .word "in" false => if c.around.allowIn then some .isIn else none
  | .word "instanceof" false => some .instanceOf
  | _ => none

/-- Which operators may not stand side by side without parentheses. -/
def clashes (op : BinaryOp) (operand : Node) (isBare : Bool) : Bool :=
  isBare && match operand.form with
    | .binary .coalesce => op == .logicalOr || op == .logicalAnd
    | .binary .logicalOr | .binary .logicalAnd => op == .coalesce
    | _ => false

/-- `#p in o` starts with a private name, everything else with a unary expression. -/
def firstOperand (above : Level) : Parse Node := do
  let c ← cursor
  match c.token with
  | .privateWord name =>
    guard (above < Level.compare && c.advance.token == .word "in" false)
    advance
    node (.privateWord name) c.start []
  | _ => g .unary

def operators (above : Level) : Parse Node := do
  let s ← start
  let first ← firstOperand g above
  let isBare := !(← isWrappedFrom s)
  let (e, _) ← loop (first, isBare) fun (left, isBare) => do
    let c ← cursor
    let c := if c.token == .punct ">" then c.reread readGreater else c
    set c
    let isCast := c.dialect.hasTypes && !c.lineBreak && above < Level.compare
    if isCast && (c.token == .word "as" false || c.token == .word "satisfies" false) then
      let form := if c.token == .word "as" false then Form.asType else Form.satisfiesType
      advance
      let typeStart ← start
      let t ← if ← skipWord "const" then node (.typeWord "const") typeStart [] else g .type
      return ((← node form s [left, t], true), true)
    match operatorHere? c with
    | none => return ((left, isBare), false)
    | some op =>
      if op.level ≤ above then return ((left, isBare), false)
      guard !(clashes op left isBare)
      guard !(op == .power && isBare && (left.form matches .unary _ | .await))
      advance
      let rightStart ← start
      let right ← g (.operators (if op == .power then op.level - 1 else op.level))
      let rightBare := !(← isWrappedFrom rightStart)
      guard !(clashes op right rightBare)
      return ((← node (.binary op) s [left, right], true), true)
  return e

def conditional : Parse Node := do
  let s ← start
  let test ← g (.operators 0)
  if ← skipPunct "?" then
    let yes ← within (fun a => { a with allowIn := true, beforeColon := true }) (g .assignment)
    punct ":"
    let no ← g .assignment
    node .conditional s [test, yes, no]
  else return test

def arrowBody (isAsync : Bool) : Parse (Node × Bool) := do
  if ← isPunct "\x7b" then
    let b ← functionBody g isAsync false
    return (b, false)
  else
    let s ← start
    let e ← within (fun a => { a with inAsync := isAsync, inGenerator := false }) (g .assignment)
    let statement ← node .expression s [e]
    return (← node (.body []) s [statement], true)

def arrowFrom (isAsync : Bool) (s : Nat) (head : Node × Node × Node) : Parse Node := do
  let (tps, ps, r) := head
  let (body, isExpression) ← arrowBody g isAsync
  node (.arrow isAsync isExpression false) s [tps, ps, r, body]

def arrowSign : Parse Unit := do
  guard !(← cursor).lineBreak
  punct "=>"

def simpleHead : Parse (Node × Node × Node) := do
  let s ← start
  let b ← binder
  let p ← node (.parameter Modifiers.none) s [b, Node.absent, Node.absent]
  let ps ← node .parameters s [p]
  arrowSign
  return (Node.absent, ps, Node.absent)

def arrowHead (isAsync withResult : Bool) : Parse (Node × Node × Node) := do
  let tps ← typeParameters? g
  let ps ← within (fun a =>
    { a with inAsync := a.inAsync || isAsync, allowIn := true, beforeColon := false })
      (parameters g)
  let r ← if withResult then resultAnnotation g else pure Node.absent
  arrowSign
  return (tps, ps, r)

/-- An arrow function with parameters in parentheses. Before a colon that ends a conditional's
branch, a colon behind the parameters announces a result type only if another one follows. -/
def arrowFunction (isAsync : Bool) (s : Nat) : Parse Node := do
  let committed (withResult : Bool) : Parse (Node × Node × Node) := arrowHead g isAsync withResult
  if (← around).beforeColon then
    match ← Parse.optional (committed false) with
    | some head => arrowFrom g isAsync s head
    | none =>
      let head ← committed true
      let n ← arrowFrom g isAsync s head
      guard (← isPunct ":")
      return n
  else
    let head ← committed true
    arrowFrom g isAsync s head

/-- Tries an arrow function where a parenthesis stands, once per place. -/
def tryArrow (isAsync : Bool) (other : Parse Node) : Parse Node := fun c =>
  if c.notArrow.contains c.start then other c else
  let attempt : Parse Node := do
    if isAsync then advance
    arrowFunction g isAsync c.start
  match attempt c with
  | .done n c' => .done n c'
  | .refused known => other { c with notArrow := c.start :: known }

def yieldExpression : Parse Node := do
  let s ← start
  keyword "yield"
  let c ← cursor
  if c.lineBreak then node (.yieldExpr false) s [Node.absent]
  else if ← skipPunct "*" then
    let e ← g .assignment
    node (.yieldExpr true) s [e]
  else
    match c.token with
    | .punct p =>
      if [")", "]", "\x7d", ",", ";", ":"].contains p then node (.yieldExpr false) s [Node.absent]
      else
        let e ← g .assignment
        node (.yieldExpr false) s [e]
    | .endOfText => node (.yieldExpr false) s [Node.absent]
    | .word "in" false => node (.yieldExpr false) s [Node.absent]
    | .word "of" false => node (.yieldExpr false) s [Node.absent]
    | _ =>
      let e ← g .assignment
      node (.yieldExpr false) s [e]

def assignmentTail : Parse Node := do
  let s ← start
  let left ← conditional g
  let c ← cursor
  match c.token with
  | .punct p =>
    match AssignOp.ofText? p with
    | none => return left
    | some op =>
      let target? := if op == .plain then left.toTarget? else left.toSimpleTarget?
      match target? with
      | none => fail
      | some target =>
        advance
        let value ← g .assignment
        node (.assign op) s [target, value]
  | _ => return left

def isPlainWord (t : Token) : Bool :=
  match t with
  | .word name _ => !(isReserved name)
  | _ => false

def assignment : Parse Node := do
  let c ← cursor
  let next := c.advance
  let arrowAfter (c : Cursor) : Bool := c.token == .punct "=>" && !c.lineBreak
  match c.token with
  | .word "yield" false => if c.around.inGenerator then yieldExpression g else plain c next
  | .word "async" false =>
    if !next.lineBreak && isPlainWord next.token && arrowAfter next.advance then
      advance
      let head ← within (fun a => { a with inAsync := true }) simpleHead
      arrowFrom g true c.start head
    else if !next.lineBreak &&
      (next.token == .punct "(" || (c.dialect.hasTypes && next.token == .punct "<")) then
      tryArrow g true (plain c next)
    else plain c next
  | .punct "(" => tryArrow g false (assignmentTail g)
  | .punct "<" =>
    if c.dialect.hasTypes then tryArrow g false (assignmentTail g) else assignmentTail g
  | _ => plain c next
where
  plain (c next : Cursor) : Parse Node := do
    if isPlainWord c.token && next.token == .punct "=>" && !next.lineBreak then
      let head ← simpleHead
      arrowFrom g false c.start head
    else assignmentTail g

def expression : Parse Node := do
  let s ← start
  let first ← g .assignment
  if ← isPunct "," then
    let es ← loop [first] fun acc => do
      if ← skipPunct "," then
        let e ← g .assignment
        return (e :: acc, true)
      else return (acc, false)
    node .sequence s es.reverse
  else return first

end

end ModuleLowering.Parse
