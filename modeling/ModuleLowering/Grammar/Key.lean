import ModuleLowering.Grammar.Goal

/-!
Property keys, parameters and binding patterns.
-/

set_option autoImplicit false

namespace ModuleLowering.Parse

section
variable (g : Goal → Parse Node)

def propertyKey : Parse (Node × Bool) := do
  let s ← start
  match ← token with
  | .word name _ => advance; return (← node (.word name) s [], false)
  | .string value _ => advance; return (← node (.string value) s [], false)
  | .number value _ => advance; return (← node (.number value) s [], false)
  | .bigint digits => advance; return (← node (.bigint digits) s [], false)
  | .privateWord name => advance; return (← node (.privateWord name) s [], false)
  | .punct "[" =>
    advance
    let key ← inBrackets (g .assignment)
    punct "]"
    return (key, true)
  | _ => fail

def initializer : Parse Node := do
  punct "="
  g .assignment

def patternWithDefault : Parse Node := do
  let s ← start
  let p ← g .pattern
  if ← isPunct "=" then
    let value ← inBrackets (initializer g)
    node .bindingDefault s [p, value]
  else return p

/-- What takes the rest ends its list, without a comma after it. -/
def restEnds : Parse Unit := do guard !(← isPunct ",")

def bindingProperty : Parse Node := do
  let s ← start
  if ← skipPunct "..." then
    let p ← binder
    restEnds
    node .bindingRest s [p, Node.absent]
  else
    let isName := match ← token with
      | .word .. => true
      | _ => false
    let plain ← nextIs fun c => c.token == .punct "," || c.token == .punct "\x7d" ||
      c.token == .punct "="
    if isName && plain then
      let key ← peekWord
      let b ← binder
      if ← isPunct "=" then
        let value ← inBrackets (initializer g)
        let p ← node .bindingDefault s [b, value]
        node (.bindingProperty true false) s [key, p]
      else node (.bindingProperty true false) s [key, b]
    else
      let (key, computed) ← propertyKey g
      punct ":"
      let p ← patternWithDefault g
      node (.bindingProperty false computed) s [key, p]
where
  peekWord : Parse Node := fun c =>
    match anyWord c with
    | .done key _ => .done key c
    | .refused n => .refused n

/-- Elements of an array, with holes. A comma after the last element makes none. -/
def arrayElements (item : Parse Node) : Parse (List Node) := do
  let items ← loop ([] : List Node) fun acc => do
    if ← skipPunct "]" then return (acc, false)
    if ← isPunct "," then
      let s ← start
      advance
      return (.mk .hole (some ⟨s, s⟩) [] :: acc, true)
    let e ← item
    if ← skipPunct "," then return (e :: acc, true)
    punct "]"
    return (e :: acc, false)
  return items.reverse

def bindingElement : Parse Node := do
  let s ← start
  if ← skipPunct "..." then
    let p ← g .pattern
    restEnds
    node .bindingRest s [p, Node.absent]
  else patternWithDefault g

def pattern : Parse Node := do
  let s ← start
  match ← token with
  | .punct "[" =>
    advance
    let items ← arrayElements (bindingElement g)
    node .bindingArray s items
  | .punct "\x7b" =>
    advance
    let items ← commaList "\x7d" (bindingProperty g)
    node .bindingObject s items
  | _ => binder

def decorator : Parse Node := do
  let s ← start
  punct "@"
  let e ← g .postfixed
  node .decorator s [e]

def decorators : Parse (List Node) := do
  let ds ← loop ([] : List Node) fun acc => do
    if ← isPunct "@" then
      let d ← decorator g
      return (d :: acc, true)
    else return (acc, false)
  return ds.reverse

def startsPattern (c : Cursor) : Bool :=
  match c.token with
  | .word name _ => !(isReserved name) || name == "this"
  | .punct "[" | .punct "\x7b" => true
  | _ => false

def parameterModifiers : Parse Modifiers := do
  if !(← dialect).hasTypes then return Modifiers.none
  loop Modifiers.none fun m => do
    match ← token with
    | .word w false =>
      if ["public", "private", "protected", "readonly", "override"].contains w &&
        (← nextIs startsPattern) then
        advance
        return (m.add w, true)
      else return (m, false)
    | _ => return (m, false)

def parameter : Parse Node := do
  let s ← start
  let ds ← decorators g
  let m ← parameterModifiers
  if ← skipPunct "..." then
    let p ← g .pattern
    let t ← annotation g
    restEnds
    node .bindingRest s (p :: t :: ds)
  else
    let types := (← dialect).hasTypes
    let p ← if types && (← isWord "this") then do
        let s ← start
        advance
        node (.word "this") s []
      else g .pattern
    let isOptional ← if types then skipPunct "?" else pure false
    let t ← annotation g
    let value ← if ← isPunct "=" then
        inBrackets (initializer g)
      else pure Node.absent
    node (.parameter { m with isOptional }) s (p :: t :: value :: ds)

def parameters : Parse Node := do
  let s ← start
  punct "("
  let ps ← commaList ")" (parameter g)
  node .parameters s ps

end

end ModuleLowering.Parse
