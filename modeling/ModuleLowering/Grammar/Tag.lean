import ModuleLowering.Grammar.TypeRules

/-!
Elements written as tags.
-/

set_option autoImplicit false

namespace ModuleLowering.Parse

section
variable (g : Goal → Parse Node)

def tagName : Parse String := do
  let c ← cursor
  match c.token with
  | .word .. =>
    set (c.reread readTagWord)
    match ← token with
    | .word name _ => advance; return name
    | _ => fail
  | _ => fail

/-- Whether a tag's name refers to a variable: lower-case and hyphenated names do not. -/
def isVariableTag (name : String) : Bool :=
  match name.toList with
  | [] => false
  | c :: cs => !('a' ≤ c && c ≤ 'z') && !(cs.contains '-')

def elementName : Parse Node := do
  let s ← start
  let name ← tagName
  if ← skipPunct ":" then
    let inner ← tagName
    node (.tagWord (name ++ ":" ++ inner)) s []
  else if ← isPunct "." then
    let first ← if name == "this" then node .thisExpr s [] else node (.tagRef name .none) s []
    loop first fun left => do
      if ← skipPunct "." then
        let wordStart ← start
        let w ← tagName
        let right ← node (.word w) wordStart []
        let n ← node .tagMember s [left, right]
        return (n, true)
      else return (left, false)
  else if name == "this" then node .thisExpr s []
  else if isVariableTag name then node (.tagRef name .none) s []
  else node (.tagWord name) s []

def advanceChild : Parse Unit := fun c =>
  match c.token with
  | .bad => .refused c.notArrow
  | .endOfText => .refused c.notArrow
  | _ => .done () (c.advanceRaw readTagChild)

def nodeHere (form : Form) (s : Nat) (parts : List Node) : Parse Node := fun c =>
  .done (.mk form (some ⟨s, c.stop⟩) parts) c

def attributeValue : Parse Node := do
  let s ← start
  let c ← cursor
  match c.here.head? with
  | some '"' | some '\'' =>
    set (c.reread readTagString)
    match ← token with
    | .string raw _ => advance; node (.tagString raw) s []
    | _ => fail
  | some '\x7b' =>
    punct "\x7b"
    guard !(← isPunct "\x7d")
    let e ← inBrackets (g .expression)
    punct "\x7d"
    node .container s [e]
  | some '<' =>
    let e ← g .element
    punct ">"
    return e
  | _ => fail

def tagAttribute : Parse Node := do
  let s ← start
  if ← skipPunct "\x7b" then
    punct "..."
    let e ← inBrackets (g .expression)
    punct "\x7d"
    node .spreadAttribute s [e]
  else
    let name ← tagName
    let name ← if ← skipPunct ":" then do
        let inner ← tagName
        pure (name ++ ":" ++ inner)
      else pure name
    let key ← node (.tagWord name) s []
    let value ← if ← skipPunct "=" then attributeValue g else pure Node.absent
    node .tagAttribute s [key, value]

/-- What is enclosed, up to the `</` of the closing tag, which is taken. -/
def children : Parse (List Node) := do
  let ns ← loop ([] : List Node) fun acc => do
    let s ← start
    match ← token with
    | .tagText raw =>
      let n ← nodeHere (.tagText raw) s []
      advanceChild
      return (n :: acc, true)
    | .punct "\x7b" =>
      advance
      let isSpread ← skipPunct "..."
      let form := if isSpread then Form.spreadChild else Form.container
      let e ← if !isSpread && (← isPunct "\x7d") then pure Node.absent
        else inBrackets (g .expression)
      guard (← isPunct "\x7d")
      let n ← nodeHere form s [e]
      advanceChild
      return (n :: acc, true)
    | .punct "<" =>
      let c ← cursor
      if c.advance.token == .punct "/" then
        advance
        advance
        return (acc, false)
      else
        let e ← g .element
        guard (← isPunct ">")
        advanceChild
        return (e :: acc, true)
    | _ => fail
  return ns.reverse

def tagPath : Node → String
  | .mk (.tagWord name) _ _ => name
  | .mk (.tagRef name _) _ _ => name
  | .mk .thisExpr _ _ => "this"
  | .mk .tagMember _ [object, .mk (.word w) _ _] => tagPath object ++ "." ++ w
  | _ => ""

/-- An element or fragment; its last `>` stays the current token. -/
def element : Parse Node := do
  let s ← start
  punct "<"
  if ← isPunct ">" then
    advanceChild
    let ns ← children g
    guard (← isPunct ">")
    nodeHere .fragment s ns
  else
    let name ← elementName
    let args ← if (← dialect).hasTypes then typeArgumentsHere g else pure Node.absent
    let attrStart ← start
    let attrs ← loop ([] : List Node) fun acc => do
      if (← isPunct ">") || (← isPunct "/") then return (acc, false)
      let a ← tagAttribute g
      return (a :: acc, true)
    let attrs ← node .attributes attrStart attrs.reverse
    if ← skipPunct "/" then
      guard (← isPunct ">")
      nodeHere .element s [name, args, attrs, Node.absent]
    else
      advanceChild
      let ns ← children g
      let closing ← elementName
      guard (tagPath name == tagPath closing)
      guard (← isPunct ">")
      nodeHere .element s ([name, args, attrs, closing] ++ ns)

end

end ModuleLowering.Parse
