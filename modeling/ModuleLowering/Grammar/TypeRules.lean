import ModuleLowering.Grammar.Key

/-!
Types.
-/

set_option autoImplicit false

namespace ModuleLowering.Parse

section
variable (g : Goal → Parse Node)

def entityName (meaning : Meaning) : Parse Node := do
  let s ← start
  let first ← match ← token with
    | .word name _ => do
      guard (!(isReserved name) || name == "this")
      advance
      node (.mention name .none meaning) s []
    | _ => fail
  loop first fun left => do
    if ← skipPunct "." then
      let right ← anyWord
      let q ← node .qualified s [left, right]
      return (q, true)
    else return (left, false)

def typeParameter : Parse Node := do
  let s ← start
  let mods ← loop ([] : List String) fun acc => do
    match ← token with
    | .word w false =>
      if ["const", "in", "out"].contains w && (← nextIs fun c => match c.token with
          | .word n _ => !(isReserved n) || n == "in"
          | _ => false) then
        advance
        return (w :: acc, true)
      else return (acc, false)
    | _ => return (acc, false)
  let b ← binder
  let bound ← if ← skipWord "extends" then g .type else pure Node.absent
  let value ← if ← skipPunct "=" then g .type else pure Node.absent
  node (.typeParameter mods.reverse) s [b, bound, value]

def typeParameters : Parse Node := do
  let s ← start
  punct "<"
  let ps ← commaList ">" (typeParameter g)
  guard !ps.isEmpty
  node .typeParameters s ps

def typeParameters? : Parse Node := typedIf "<" (typeParameters g)

def typeArguments : Parse Node := do
  let s ← start
  punct "<"
  let ps ← commaList ">" (g .type)
  guard !ps.isEmpty
  node .typeArguments s ps

def typeArgumentsHere : Parse Node := do
  if (← isPunct "<") && !(← cursor).lineBreak then typeArguments g else return Node.absent

/-- The type of a function's result, which may be a statement about a parameter. -/
def resultType : Parse Node := do
  let s ← start
  let subject : Parse Node := do
    let s ← start
    match ← token with
    | .word name _ =>
      guard (!(isReserved name) || name == "this")
      advance
      node (.word name) s []
    | _ => fail
  let asserting : Parse Node := do
    keyword "asserts"
    guard !(← cursor).lineBreak
    guard !(← isWord "is")
    let p ← subject
    let t ← if ← isWordHere "is" then do keyword "is"; g .type else pure Node.absent
    node (.typePredicate true) s [p, t]
  let telling : Parse Node := do
    let p ← subject
    guard (← isWordHere "is")
    keyword "is"
    let t ← g .type
    node (.typePredicate false) s [p, t]
  asserting <|> telling <|> g .type

def resultAnnotation : Parse Node :=
  typedIf ":" do
    punct ":"
    inBrackets (resultType g)

def functionType (form : Form) (s : Nat) : Parse Node := do
  let tps ← typeParameters? g
  let ps ← parameters g
  punct "=>"
  let r ← resultType g
  node form s [tps, ps, r]

def memberEnd : Parse Unit := do
  if !((← skipPunct ";") || (← skipPunct ",")) then
    let c ← cursor
    guard (c.lineBreak || c.token == .punct "\x7d")

def signatureTail : Parse (Node × Node × Node) := do
  let tps ← typeParameters? g
  let ps ← parameters g
  let r ← resultAnnotation g
  return (tps, ps, r)

def indexSignature (m : Modifiers) (s : Nat) : Parse Node := do
  punct "["
  let name ← variableName
  punct ":"
  let key ← g .type
  punct "]"
  let t ← annotation g
  node (.indexSignature m name) s [key, t]

def atIndexSignature (c : Cursor) : Bool :=
  let name := c.advance
  let colon := name.advance
  c.token == .punct "[" && colon.token == .punct ":" && match name.token with
    | .word n _ => !(isReserved n)
    | _ => false

def startsKey (c : Cursor) : Bool :=
  match c.token with
  | .word .. | .string .. | .number .. | .bigint .. | .privateWord .. | .punct "[" => true
  | _ => false

def signature : Parse Node := do
  let s ← start
  let c ← cursor
  if (← isPunct "(") || (← isPunct "<") then
    let (tps, ps, r) ← signatureTail g
    node (.callSignature false) s [tps, ps, r]
  else if (← isWord "new") && (c.advance.token == .punct "(" || c.advance.token == .punct "<") then
    advance
    let (tps, ps, r) ← signatureTail g
    node (.callSignature true) s [tps, ps, r]
  else
    let isReadonly ← if (← isWord "readonly") && startsKey c.advance && !c.advance.lineBreak then do
        advance; pure true
      else pure false
    let m := { Modifiers.none with isReadonly }
    if atIndexSignature (← cursor) then indexSignature g m s
    else
      let c ← cursor
      let kind ← if c.token == .word "get" false && startsKey c.advance then do
          advance; pure MethodKind.getter
        else if c.token == .word "set" false && startsKey c.advance then do
          advance; pure MethodKind.setter
        else pure MethodKind.plain
      let (key, isComputed) ← propertyKey g
      let isOptional ← skipPunct "?"
      let m := { m with isComputed, isOptional }
      if (← isPunct "(") || (← isPunct "<") then
        let (tps, ps, r) ← signatureTail g
        node (.methodSignature kind m) s [key, tps, ps, r]
      else
        let t ← annotation g
        node (.propertySignature m) s [key, t]

def signatures : Parse (List Node) := do
  punct "\x7b"
  untilClosed "\x7d" do
    let n ← signature g
    memberEnd
    return n

def signed (modifier : Parse Bool) (word : String) : Parse (Option String) := do
  if ← skipPunct "+" then
    guard (← modifier)
    return some ("+" ++ word)
  else if ← skipPunct "-" then
    guard (← modifier)
    return some ("-" ++ word)
  else if ← modifier then return some word
  else return none

def mappedType : Parse Node := do
  let s ← start
  punct "\x7b"
  let isReadonly ← signed (skipWord "readonly") "readonly"
  punct "["
  let b ← binder
  keyword "in"
  let bound ← g .type
  let renamed ← if ← skipWord "as" then g .type else pure Node.absent
  punct "]"
  let isOptional ← signed (skipPunct "?") "?"
  let t ← annotation g
  let _ ← skipPunct ";"
  let _ ← skipPunct ","
  punct "\x7d"
  node (.mappedType isReadonly isOptional) s [b, bound, renamed, t]

def tupleElement : Parse Node := do
  let s ← start
  let labeled : Parse Node := do
    let label ← anyWord
    let isOptional ← skipPunct "?"
    punct ":"
    let t ← g .type
    node (.tupleMember isOptional) s [label, t]
  let plain : Parse Node := do
    let t ← g .type
    if ← skipPunct "?" then node .optionalType s [t] else return t
  if ← skipPunct "..." then
    let t ← labeled <|> g .type
    node .restType s [t]
  else labeled <|> plain

def templateTypeParts : Parse (List String × List Node) := do
  let (chunks, types) ← loop (([], []) : List String × List Node) fun (chunks, types) => do
    match ← token with
    | .template raw _ true => advance; return ((raw :: chunks, types), false)
    | .template raw _ false =>
      advance
      let t ← g .type
      let c ← cursor
      guard (c.token == .punct "\x7d")
      set (c.reread fun cs => readTemplate true [] (cs.drop 1))
      return ((raw :: chunks, t :: types), true)
    | _ => fail
  return (chunks.reverse, types.reverse)

def keywordTypes : List String :=
  ["any", "unknown", "never", "void", "undefined", "null", "string", "number", "boolean", "bigint",
   "symbol", "object", "this", "true", "false", "intrinsic"]

def importType : Parse Node := do
  let s ← start
  keyword "import"
  punct "("
  let source ← g .type
  let options ← if ← skipPunct "," then
      if ← isPunct ")" then pure Node.absent else g .assignment
    else pure Node.absent
  let _ ← skipPunct ","
  punct ")"
  let qualifier ← if ← skipPunct "." then importQualifier else pure Node.absent
  let args ← typeArgumentsHere g
  node .importType s [source, options, qualifier, args]
where
  importQualifier : Parse Node := do
    let s ← start
    let first ← anyWord
    loop first fun left => do
      if ← skipPunct "." then
        let right ← anyWord
        let q ← node .qualified s [left, right]
        return (q, true)
      else return (left, false)

def primaryType : Parse Node := do
  let s ← start
  let c ← cursor
  match c.token with
  | .string value _ => advance; node (.string value) s []
  | .number _ raw => advance; node (.typeWord raw) s []
  | .bigint digits => advance; node (.typeWord (digits ++ "n")) s []
  | .template .. =>
    let (chunks, types) ← templateTypeParts g
    node (.templateType chunks) s types
  | .punct "-" =>
    advance
    match ← token with
    | .number _ raw => advance; node (.typeWord ("-" ++ raw)) s []
    | .bigint digits => advance; node (.typeWord ("-" ++ digits ++ "n")) s []
    | _ => fail
  | .punct "[" =>
    advance
    let ts ← commaList "]" (tupleElement g)
    node .tupleType s ts
  | .punct "\x7b" =>
    mappedType g <|> do
      let ms ← signatures g
      node .typeLiteral s ms
  | .punct "(" =>
    advance
    let t ← inBrackets (g .type)
    punct ")"
    return t
  | .word "typeof" false =>
    advance
    let e ← if ← isWord "import" then importType g else entityName .value
    let args ← typeArgumentsHere g
    node .typeQuery s [e, args]
  | .word "import" false => importType g
  | .word name false =>
    if keywordTypes.contains name && c.advance.token != .punct "." then
      advance
      node (.typeWord name) s []
    else
      let e ← entityName .type
      let args ← typeArgumentsHere g
      node .typeReference s [e, args]
  | _ => fail

def arrayedType : Parse Node := do
  let s ← start
  let first ← primaryType g
  loop first fun t => do
    if (← isPunct "[") && !(← cursor).lineBreak then
      advance
      if ← skipPunct "]" then return (← node .arrayType s [t], true)
      let i ← g .type
      punct "]"
      return (← node .indexedAccess s [t, i], true)
    else return (t, false)

def startsType (c : Cursor) : Bool :=
  match c.token with
  | .word .. | .string .. | .number .. | .template .. => true
  | .punct p => ["(", "[", "\x7b", "<", "-"].contains p
  | _ => false

def separatedTypes (sep : String) (form : Form) (operand : Parse Node) : Parse Node := do
  let s ← start
  let leading ← skipPunct sep
  let first ← operand
  let ts ← loop [first] fun acc => do
    if ← skipPunct sep then
      let t ← operand
      return (t :: acc, true)
    else return (acc, false)
  match ts with
  | [t] => if leading then node form s [t] else return t
  | _ => node form s ts.reverse

def unionOf (operand : Parse Node) : Parse Node :=
  separatedTypes "|" .unionType (separatedTypes "&" .intersectionType operand)

/-- Type operators bind tighter than unions; the number bounds how many there are. Inside the bound
of a conditional type, where no other conditional can stand, a `?` after the bound of an inferred
type belongs to the outer one. -/
def operatorType (inBound : Bool) : Nat → Parse Node
  | 0 => fail
  | fuel + 1 => do
    let s ← start
    let c ← cursor
    match c.token with
    | .word "infer" false =>
      if (match c.advance.token with | .word n _ => !(isReserved n) | _ => false) then
        advance
        let b ← binder
        let bound ← (do
          keyword "extends"
          let t ← unionOf (operatorType true fuel)
          guard (inBound || !(← isPunct "?"))
          return t) <|> pure Node.absent
        let p ← node (.typeParameter []) s [b, bound, Node.absent]
        node .inferType s [p]
      else arrayedType g
    | .word op false =>
      if ["keyof", "unique", "readonly"].contains op && startsType c.advance && !c.advance.lineBreak
        then
        advance
        let t ← operatorType inBound fuel
        node (.typeOperator op) s [t]
      else arrayedType g
    | _ => arrayedType g

def unionType (inBound : Bool) : Parse Node := unionOf (operatorType g inBound 100)

def type : Parse Node := do
  let s ← start
  let c ← cursor
  if c.token == .word "new" false then
    advance
    functionType g (.constructorType false) s
  else if c.token == .word "abstract" false && c.advance.token == .word "new" false then
    advance
    advance
    functionType g (.constructorType true) s
  else if c.token == .punct "<" then functionType g .functionType s
  else
    let arrow : Parse Node := do
      guard (c.token == .punct "(")
      functionType g .functionType s
    arrow <|> do
      let t ← unionType g false
      let c ← cursor
      if c.token == .word "extends" false && !c.lineBreak then
        let conditional : Parse Node := do
          advance
          let bound ← unionOrFunction
          punct "?"
          let yes ← g .type
          punct ":"
          let no ← g .type
          node .conditionalType s [t, bound, yes, no]
        conditional <|> return t
      else return t
where
  unionOrFunction : Parse Node := do
    let s ← start
    (functionType g .functionType s) <|> unionType g true

end

end ModuleLowering.Parse
