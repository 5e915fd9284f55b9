import ModuleLowering.Print.Place

/-!
Expressions.
-/

set_option autoImplicit false

namespace ModuleLowering.Print

section
variable (p : Printer)

def part (n : Node) (level : Level) (before : String) (after : String) : Print Unit :=
  if n.isAbsent then pure () else do
    emit before
    p n (.under level)
    emit after

def list (ns : List Node) (level : Level) : Print Unit :=
  separated ", " (ns.map fun n => p n (.under level))

def argumentList (ns : List Node) : Print Unit := do
  emit "("
  list p ns Level.comma
  emit ")"

/-- A property key, in brackets if it is computed. A number too large to represent has no other
spelling. -/
def key (n : Node) (isComputed : Bool) : Print Unit := do
  let brackets := isComputed || (n.form matches .number .infinite)
  if brackets then emit "["
  p n (.under Level.comma)
  if brackets then emit "]"

def spreadOut (opening closing : String) (limit : Nat) (padded : Bool) (items : List (Print Unit)) :
    Print Unit := do
  emit opening
  if items.length > limit then
    deeper do
      newline
      indentation
      lines items
    newline
    indentation
  else if !items.isEmpty then
    if padded then emit " "
    separated ", " items
    if padded then emit " "
  emit closing
where
  lines : List (Print Unit) → Print Unit
    | [] => pure ()
    | [item] => item
    | item :: rest => do
      item
      emit ","
      newline
      indentation
      lines rest

def isShorthand (isMarked : Bool) (k value : Node) : Bool :=
  match k.form, value.form with
  | .word "__proto__", _ => isMarked
  | .word w, .ident name _ => w == name
  | _, _ => false

def property (isMarked isComputed : Bool) (k value : Node) : Print Unit := do
  if isComputed || !(isShorthand isMarked k value) then
    key p k isComputed
    emit ": "
  p value (.under Level.comma)

/-- A hole at the end of a list needs a comma of its own. -/
def arrayItems : List Node → List (Print Unit)
  | [] => []
  | [n] => [do
      p n (.under Level.comma)
      if n.form matches .hole then emit ","]
  | n :: ns => p n (.under Level.comma) :: arrayItems ns

def templateText (chunks : List String) (holes : List (Print Unit)) : Print Unit := do
  emit "\x60"
  go chunks holes
  emit "\x60"
where
  chunkText (s : String) : Print Unit := emit (String.ofList (hideScriptEnd s.toList))
  go : List String → List (Print Unit) → Print Unit
    | c :: cs, h :: hs => do
      chunkText c
      emit "$\x7b"
      h
      emit "\x7d"
      go cs hs
    | c :: _, [] => chunkText c
    | [], _ => pure ()

def operandLevels (op : BinaryOp) (left right : Node) : Level × Level :=
  let own := op.level
  let isMixed (n : Node) : Bool := n.form matches .binary .logicalAnd | .binary .logicalOr
  match op with
  | .power =>
    let isSigned := left.form matches .unary _ | .number _
    (if isSigned then Level.call else own, own - 1)
  | .coalesce =>
    (if isMixed left then Level.unary else own - 1,
     if isMixed right then Level.unary else if right.form = .binary .coalesce then own - 1 else own)
  | _ => (own - 1, if op.isLogical && right.form = .binary op then own - 1 else own)

def binary (op : BinaryOp) (left right : Node) (place : Place) : Print Unit := do
  let needed := place.level ≥ op.level || (op == .isIn && place.noIn)
  let here := place.wrapped needed
  let here := if needed then { here with noIn := false } else here
  let (l, r) := operandLevels op left right
  wrapIf needed do
    p left (here.first l)
    emit (" " ++ op.text ++ " ")
    p right (here.inner r)

/-- Signs that would run together are set apart. -/
def touches (before : Option UnaryOp) (next : Form) : Bool :=
  match before, next with
  | some .plus, .unary .plus | some .plus, .update .increment true => true
  | some .minus, .unary .minus | some .minus, .update .decrement true => true
  | _, _ => false

def unary (op : UnaryOp) (operand : Node) (place : Place) : Print Unit := do
  let needed := place.level ≥ Level.unary
  let here := place.wrapped needed
  wrapIf needed do
    if touches here.sign (.unary op) then emit " "
    emit op.text
    if op.isWord then emit " "
    if op == .delete && operand.form matches .number .infinite then
      emit "(0, "
      p operand .plain
      emit ")"
    else p operand { here.inner Level.power with sign := if op.isWord then none else some op }

def update (op : UpdateOp) (isPrefixed : Bool) (operand : Node) (place : Place) : Print Unit := do
  let own := if isPrefixed then Level.unary else Level.update
  let needed := place.level ≥ own
  let here := place.wrapped needed
  wrapIf needed do
    if isPrefixed then
      if touches here.sign (.update op true) then emit " "
      emit op.text
      p operand (here.inner Level.unary)
    else
      p operand (here.first Level.update)
      emit op.text

def assign (op : AssignOp) (left right : Node) (place : Place) : Print Unit := do
  let startsWithBrace := (place.lead == .statement || place.lead == .arrowBody) &&
    left.form == .targetObject
  let needed := startsWithBrace || place.level ≥ Level.assign
  let here := place.wrapped needed
  wrapIf needed do
    p left (here.first Level.comma)
    emit (" " ++ op.text ++ " ")
    p right (here.inner Level.comma)

def conditional (test yes no : Node) (place : Place) : Print Unit := do
  let needed := place.level ≥ Level.conditional
  let here := place.wrapped needed
  let here := if needed then { here with noIn := false } else here
  wrapIf needed do
    p test (here.first Level.conditional)
    emit " ? "
    p yes (.under Level.yieldLevel)
    emit " : "
    p no (here.inner Level.yieldLevel)

def sequence (items : List Node) (place : Place) : Print Unit := do
  let needed := place.level ≥ Level.comma
  let here := place.wrapped needed
  wrapIf needed do
    match items with
    | [] => pure ()
    | first :: rest =>
      separated ", " (p first (here.first Level.lowest) :: rest.map fun n => p n
        (here.inner Level.lowest))

def call (isOptional : Bool) (callee typeArgs : Node) (args : List Node) (place : Place) :
    Print Unit := do
  let needed := place.level ≥ Level.newLevel || place.noCall
  let here := place.wrapped needed
  wrapIf needed do
    p callee { here.first Level.update with noIn := false }
    if isOptional then emit "?."
    p typeArgs .plain
    argumentList p args

def construct (callee typeArgs : Node) (args : List Node) (place : Place) : Print Unit := do
  wrapIf (place.level ≥ Level.call) do
    emit "new "
    p callee { Place.under Level.newLevel with noCall := true }
    p typeArgs .plain
    argumentList p args

def objectPlace (place : Place) : Place :=
  { place.first Level.update with noIn := false, noCall := place.noCall }

def isPlainDigits (n : Node) : Bool :=
  match n.form with
  | .number v => v.shortText.toList.all isAsciiDigit
  | _ => false

def member (isOptional : Bool) (object name : Node) (place : Place) : Print Unit := do
  p object (objectPlace place)
  if isOptional then emit "?" else if isPlainDigits object then emit " "
  emit "."
  p name .plain

def index (isOptional : Bool) (object inside : Node) (place : Place) : Print Unit := do
  p object (objectPlace place)
  emit (if isOptional then "?.[" else "[")
  p inside .plain
  emit "]"

def typed (word : String) (e t : Node) (place : Place) : Print Unit := do
  let needed := place.level ≥ Level.compare
  let here := place.wrapped needed
  wrapIf needed do
    p e (here.first Level.power)
    emit (" " ++ word ++ " ")
    p t .plain

/-- A decorator needs no parentheses around a name, a path or a call of one. -/
def isBareDecorator (e : Node) : Bool :=
  match e with
  | .mk (.ident ..) _ _ => true
  | .mk (.member false) _ _ => true
  | .mk (.call false) _ (.mk (.ident ..) _ _ :: _) => true
  | .mk (.call false) _ (.mk (.member false) _ _ :: _) => true
  | _ => false

def decorators (ds : List Node) : Print Unit :=
  each (ds.map fun d => do
    p d .plain
    emit " ")

def expression? (n : Node) (place : Place) : Option (Print Unit) :=
  match n with
  | .mk (.ident name _) _ _ => some (emit name)
  | .mk (.string value) _ _ => some (emit (quoted value))
  | .mk (.number value) _ _ => some (emit value.shortText)
  | .mk (.bigint digits) _ _ => some (emit (digits ++ "n"))
  | .mk (.boolean value) _ _ => some (emit (if value then "true" else "false"))
  | .mk (.regExp pattern flags) _ _ =>
    some (emit ("/" ++ String.ofList (hideScriptEnd pattern.toList) ++ "/" ++ flags))
  | .mk .nullLiteral _ _ => some (emit "null")
  | .mk .thisExpr _ _ => some (emit "this")
  | .mk .superExpr _ _ => some (emit "super")
  | .mk (.metaProperty text) _ _ => some (emit text)
  | .mk (.template chunks) _ holes => some (templateText chunks (holes.map fun h => p h .plain))
  | .mk .hole _ _ => some (pure ())
  | .mk .spread _ [e] => some do
      emit "..."
      p e (.under Level.comma)
  | .mk .array _ es => some (spreadOut "[" "]" 2 false (arrayItems p es))
  | .mk .object _ ps =>
    let needed := place.lead == .statement || place.lead == .arrowBody
    some (wrapIf needed (spreadOut "\x7b" "\x7d" 1 true (ps.map fun q => p q .plain)))
  | .mk (.property isMarked isComputed) _ [k, value] =>
    some (property p isMarked isComputed k value)
  | .mk (.unary op) _ [e] => some (unary p op e place)
  | .mk (.update op isPrefixed) _ [e] => some (update p op isPrefixed e place)
  | .mk (.binary op) _ [l, r] => some (binary p op l r place)
  | .mk (.assign op) _ [l, r] => some (assign p op l r place)
  | .mk .conditional _ [t, yes, no] => some (conditional p t yes no place)
  | .mk .sequence _ es => some (sequence p es place)
  | .mk (.call isOptional) _ (callee :: typeArgs :: args) =>
    some (call p isOptional callee typeArgs args place)
  | .mk .construct _ (callee :: typeArgs :: args) => some (construct p callee typeArgs args place)
  | .mk (.member isOptional) _ [o, name] => some (member p isOptional o name place)
  | .mk (.index isOptional) _ [o, i] => some (index p isOptional o i place)
  | .mk .chain _ [e] =>
    let needed := place.level ≥ Level.update
    some (wrapIf needed (p e (place.wrapped needed)))
  | .mk .tagged _ [tag, typeArgs, template] => some do
      p tag { place.first Level.update with noIn := false }
      p typeArgs .plain
      p template .plain
  | .mk (.yieldExpr isDelegate) _ [e] => some (wrapIf (place.level ≥ Level.assign) do
      emit (if isDelegate then "yield*" else "yield")
      if !e.isAbsent then
        emit " "
        p e (place.inner Level.yieldLevel))
  | .mk .await _ [e] => some (wrapIf (place.level ≥ Level.unary) do
      emit "await "
      p e (place.inner Level.power))
  | .mk .importCall _ args => some (wrapIf (place.level ≥ Level.newLevel || place.noCall) do
      emit "import"
      argumentList p args)
  | .mk .asType _ [e, t] => some (typed p "as" e t place)
  | .mk .satisfiesType _ [e, t] => some (typed p "satisfies" e t place)
  | .mk .typeAssertion _ [t, e] => some (wrapIf true do
      emit "<"
      p t .plain
      emit ">"
      p e (.under Level.member))
  | .mk .nonNull _ [e] => some do
      p e place
      emit "!"
  | .mk .instantiation _ [e, args] => some do
      p e place
      p args .plain
  | .mk .decorator _ [e] => some do
      emit "@"
      wrapIf (!(isBareDecorator e)) (p e .plain)
  | _ => none

end

end ModuleLowering.Print
