import ModuleLowering.Grammar.Statement

/-!
Module declarations, and declarations of types.
-/

set_option autoImplicit false

namespace ModuleLowering.Parse

section
variable (g : Goal → Parse Node)

def importClause : Parse Node := do
  let s ← start
  let c ← cursor
  match c.token with
  | .word w false =>
    if (w == "with" || (w == "assert" && !c.lineBreak)) && c.advance.token == .punct "\x7b" then
      advance
      punct "\x7b"
      let items ← commaList "\x7d" do
        let s ← start
        let key ← moduleName
        punct ":"
        let valueStart ← start
        let value ← stringLiteral
        node .importAttribute s [key, ← node (.string value) valueStart []]
      node (.importClause w) s items
    else return Node.absent
  | _ => return Node.absent

def isNameToken (t : Token) : Bool :=
  match t with
  | .word .. | .string .. => true
  | _ => false

/-- A specifier: whether it is for types only, its first name, and the name after `as`. Where there
are types, the words `type` and `as` can be names too. -/
def specifier : Parse (Bool × Node × Option Node) := do
  let types := (← dialect).hasTypes
  let plainTail (isType : Bool) (name : Node) : Parse (Bool × Node × Option Node) := do
    if ← skipWord "as" then
      let other ← moduleName
      return (isType, name, some other)
    else return (isType, name, none)
  let first ← moduleName
  if types && (first.form matches .word "type") then
    let c ← cursor
    if c.token == .word "as" false then
      let firstAs ← moduleName
      if ← isWord "as" then
        let secondAs ← moduleName
        if isNameToken (← token) then
          let name ← moduleName
          return (true, firstAs, some name)
        else return (false, first, some secondAs)
      else if isNameToken (← token) then
        let name ← moduleName
        return (false, first, some name)
      else return (true, firstAs, none)
    else if isNameToken c.token then
      let name ← moduleName
      plainTail true name
    else plainTail false first
  else plainTail false first

def asBinder? : Node → Option Node
  | .mk (.word name) s ps => if isReserved name then none else some (.mk (.binder name none) s ps)
  | _ => none

def asMention? : Node → Option Node
  | .mk (.word name) s ps =>
    if isReserved name then none else some (.mk (.mention name .none .either) s ps)
  | _ => none

def orFail (n : Option Node) : Parse Node :=
  match n with
  | some n => Parse.pure n
  | none => fail

def importSpecifier : Parse Node := do
  let s ← start
  let (isType, name, other) ← specifier
  let b ← orFail (asBinder? (other.getD name))
  node (.importNamed isType) s [name, b]

def importSpecifiers : Parse (List Node) := do
  let s ← start
  let namespaceOrNames : Parse (List Node) := do
    let s ← start
    if ← skipPunct "*" then
      keyword "as"
      let b ← binder
      return [← node .importNamespace s [b]]
    else
      punct "\x7b"
      commaList "\x7d" importSpecifier
  let c ← cursor
  match c.token with
  | .word .. =>
    let b ← binder
    let d ← node .importDefault s [b]
    if ← skipPunct "," then
      let more ← namespaceOrNames
      return d :: more
    else return [d]
  | _ => namespaceOrNames

def importEqualsRest (s : Nat) (b : Node) : Parse Node := do
  punct "="
  let c ← cursor
  let value ← if c.token == .word "require" false && c.advance.token == .punct "(" then do
      advance
      punct "("
      let valueStart ← start
      let source ← stringLiteral
      let n ← node (.string source) valueStart []
      punct ")"
      pure n
    else entityName .either
  semicolon
  node .importEquals s [b, value]

def importsTypes (c : Cursor) : Bool :=
  let next := c.advance
  c.dialect.hasTypes && c.token == .word "type" false &&
    match next.token with
    | .punct "\x7b" | .punct "*" => true
    | .word "from" false =>
      next.advance.token == .word "from" false || next.advance.token == .punct "="
    | .word .. => true
    | _ => false

def importDeclaration : Parse Node := do
  let s ← start
  keyword "import"
  match ← token with
  | .string source _ =>
    advance
    let clause ← importClause
    semicolon
    node (.importDecl false false source) s [clause]
  | _ =>
    let isType := importsTypes (← cursor)
    if isType then advance
    let c ← cursor
    if c.dialect.hasTypes && isPlainWord c.token && c.advance.token == .punct "=" then
      let b ← binder
      importEqualsRest s b
    else
      let specifiers ← importSpecifiers
      keyword "from"
      let source ← stringLiteral
      let clause ← importClause
      semicolon
      node (.importDecl isType true source) s (specifiers ++ [clause])

def exportSpecifier : Parse (Bool × Nat × Node × Node) := do
  let s ← start
  let (isType, name, other) ← specifier
  return (isType, s, name, other.getD name)

def exportList (s : Nat) (isType : Bool) : Parse Node := do
  punct "\x7b"
  let items ← commaList "\x7d" exportSpecifier
  let place (s : Nat) (e : Node) : Option Span := some ⟨s, (e.span.map Span.stop).getD s⟩
  if ← skipWord "from" then
    let source ← stringLiteral
    let clause ← importClause
    semicolon
    let specs := items.map fun (t, s, name, other) =>
      Node.mk (.exportSpecifier t) (place s other) [name, other]
    node (.exportFrom isType source) s (specs ++ [clause])
  else
    semicolon
    let specs ← items.foldrM (fun (t, s, name, other) acc => do
      let m ← orFail (asMention? name)
      return Node.mk (.exportSpecifier t) (place s other) [m, other] :: acc) []
    node (.exportNamed isType) s specs

def exportStar (s : Nat) (isType : Bool) : Parse Node := do
  punct "*"
  let name ← if ← skipWord "as" then moduleName else pure Node.absent
  keyword "from"
  let source ← stringLiteral
  let clause ← importClause
  semicolon
  node (.exportAll isType source) s [name, clause]

def interfaceDeclaration : Parse Node := do
  let s ← start
  keyword "interface"
  let b ← binder
  let tps ← typeParameters? g
  let heritageStart ← start
  let bases ← if ← skipWord "extends" then do
      let first ← baseType g
      let ts ← loop [first] fun acc => do
        if ← skipPunct "," then
          let t ← baseType g
          return (t :: acc, true)
        else return (acc, false)
      pure ts.reverse
    else pure []
  let h ← node .heritage heritageStart (bases.flatMap fun (e, args) => [e, args])
  let bodyStart ← start
  let ms ← signatures g
  let body ← node .typeLiteral bodyStart ms
  node .interface s [b, tps, h, body]

def typeAliasDeclaration : Parse Node := do
  let s ← start
  keyword "type"
  let b ← binder
  let tps ← typeParameters? g
  punct "="
  let t ← g .type
  semicolon
  node (.typeAlias false) s [b, tps, t]

def enumMember : Parse Node := do
  let s ← start
  let (name, isComputed) ← propertyKey g
  guard !(name.form matches .number _ | .bigint _ | .privateWord _)
  let value ← if ← isPunct "=" then inBrackets (initializer g) else pure Node.absent
  node (.enumMember isComputed) s [name, value]

def enumDeclaration : Parse Node := do
  let s ← start
  let isConst ← skipWord "const"
  keyword "enum"
  let b ← binder
  punct "\x7b"
  let ms ← commaList "\x7d" (enumMember g)
  node (.enumDecl isConst false) s (b :: ms)

def namespaceBody : Parse Node := do
  let s ← start
  punct "\x7b"
  let (directives, ns) ← within
    (fun a => { a with allowIn := true, inFunction := false, inAsync := false })
    (bodyItems g (skipPunct "\x7d"))
  node (.namespaceBody directives) s ns

/-- A namespace: inner names after dots nest. The number bounds the dots. -/
def namespaceRest (word : String) (s : Nat) : Nat → Parse Node
  | 0 => fail
  | dots + 1 => do
    let name ← binder
    if ← skipPunct "." then
      let innerStart ← start
      let inner ← namespaceRest word innerStart dots
      node (.namespaceDecl word false) s [name, inner]
    else
      let b ← namespaceBody g
      node (.namespaceDecl word false) s [name, b]

def namespaceDeclaration : Parse Node := do
  let s ← start
  match ← token with
  | .word word _ =>
    advance
    match ← token with
    | .string value _ =>
      let nameStart ← start
      advance
      let name ← node (.string value) nameStart []
      let b ← if ← isPunct "\x7b" then namespaceBody g else do
          semicolon
          pure Node.absent
      node (.namespaceDecl word false) s [name, b]
    | _ => namespaceRest g word s 100
  | _ => fail

def globalDeclaration : Parse Node := do
  let s ← start
  keyword "global"
  let b ← namespaceBody g
  node (.globalDecl false) s [b]

def typedWordHere (c : Cursor) : Bool :=
  let next := c.advance
  let named := isPlainWord next.token && !next.lineBreak
  c.dialect.hasTypes && match c.token with
    | .word "type" false | .word "interface" false => named
    | .word "enum" false => true
    | .word "const" false => next.token == .word "enum" false
    | .word "namespace" false => named
    | .word "module" false => named || ((next.token matches .string ..) && !next.lineBreak)
    | .word "abstract" false => next.token == .word "class" false && !next.lineBreak
    | .word "global" false => next.token == .punct "\x7b"
    | _ => false

def typedDeclaration : Parse Node := do
  let c ← cursor
  match c.token with
  | .word "type" false => typeAliasDeclaration g
  | .word "interface" false => interfaceDeclaration g
  | .word "enum" false | .word "const" false => enumDeclaration g
  | .word "abstract" false => g (.classDef false)
  | .word "global" false => globalDeclaration g
  | _ => namespaceDeclaration g

def declaration : Parse Node := do
  let c ← cursor
  if typedWordHere c then typedDeclaration g
  else
    match c.token with
    | .word "function" false => functionDeclaration g true
    | .word "async" false => functionDeclaration g true
    | .word "class" false | .punct "@" => g (.classDef false)
    | .word "import" false =>
      let s ← start
      keyword "import"
      if importsTypes (← cursor) then advance
      let b ← binder
      importEqualsRest s b
    | _ =>
      match variableKindHere? c with
      | some (kind, words) => variableStatement g kind words
      | none => fail

def declared : Form → Form
  | .function t => .function { t with isDeclared := true }
  | .classDef t => .classDef { t with isDeclared := true }
  | .varDecl kind _ => .varDecl kind true
  | .typeAlias _ => .typeAlias true
  | .enumDecl isConst _ => .enumDecl isConst true
  | .namespaceDecl word _ => .namespaceDecl word true
  | .globalDecl _ => .globalDecl true
  | f => f

def declareAt (s : Nat) : Node → Node
  | .mk f span ps => .mk (declared f) (span.map fun r => ⟨s, r.stop⟩) ps

def declareDeclaration : Parse Node := do
  let s ← start
  keyword "declare"
  let n ← within (fun a => { a with isAmbient := true }) (declaration g)
  return declareAt s n

def declaresHere (c : Cursor) : Bool :=
  let next := c.advance
  c.dialect.hasTypes && c.token == .word "declare" false && !next.lineBreak &&
    (typedWordHere next || (match next.token with
      | .word w false => ["var", "let", "const", "function", "class", "async", "import"].contains w
      | _ => false))

def exportDefaultRest (s : Nat) : Parse Node := do
  let c ← cursor
  let next := c.advance
  let bare (n : Node) : Parse Node := node .exportDefault s [n]
  match c.token with
  | .word "function" false => bare (← functionDeclaration g false)
  | .word "class" false | .punct "@" => bare (← g (.classDef false))
  | _ =>
    if c.token == .word "async" false && next.token == .word "function" false &&
      !next.lineBreak then
      bare (← functionDeclaration g false)
    else if c.dialect.hasTypes && c.token == .word "abstract" false && next.token == .word
      "class" false then
      bare (← g (.classDef false))
    else if c.dialect.hasTypes && c.token == .word "interface" false && isPlainWord next.token &&
      !next.lineBreak then
      bare (← interfaceDeclaration g)
    else
      let e ← inBrackets (g .assignment)
      semicolon
      node .exportDefault s [e]

def exportDeclaration (s : Nat) : Parse Node := do
  keyword "export"
  let c ← cursor
  let next := c.advance
  match c.token with
  | .punct "*" => exportStar s false
  | .punct "\x7b" => exportList s false
  | .word "default" false =>
    advance
    exportDefaultRest g s
  | _ =>
    if c.dialect.hasTypes && c.token == .punct "=" then
      advance
      let e ← inBrackets (g .expression)
      semicolon
      node .exportAssignment s [e]
    else if c.dialect.hasTypes && c.token == .word "as" false && next.token == .word
      "namespace" false then
      advance
      advance
      let name ← variableName
      semicolon
      node (.exportNamespace name) s []
    else if c.dialect.hasTypes && c.token == .word "type" false && next.token == .punct "\x7b" then
      advance
      exportList s true
    else if c.dialect.hasTypes && c.token == .word "type" false && next.token == .punct "*" then
      advance
      exportStar s true
    else
      let d ← if declaresHere c then declareDeclaration g else declaration g
      node .exportDeclaration s [d]

def decorate (ds : List Node) : Node → Option Node
  | .mk (.classDef t) s ps => some (.mk (.classDef t) s (ps ++ ds))
  | .mk .exportDeclaration s [.mk (.classDef t) cs ps] =>
    some (.mk .exportDeclaration s [.mk (.classDef t) cs (ps ++ ds)])
  | .mk .exportDefault s [.mk (.classDef t) cs ps] =>
    some (.mk .exportDefault s [.mk (.classDef t) cs (ps ++ ds)])
  | _ => none

def decorated : Parse Node := do
  let s ← start
  let ds ← decorators g
  if ← isWord "export" then
    let n ← exportDeclaration g s
    orFail (decorate ds n)
  else
    let n ← g (.classDef false)
    match n with
    | .mk (.classDef t) _ ps => node (.classDef t) s (ps ++ ds)
    | _ => fail

def statement : Parse Node := do
  let s ← start
  let c ← cursor
  let next := c.advance
  match c.token with
  | .punct "@" => decorated g
  | .word "import" false =>
    if next.token == .punct "(" || next.token == .punct "." then plainStatement g
      else importDeclaration
  | .word "export" false => exportDeclaration g s
  | _ =>
    if declaresHere c then declareDeclaration g
    else if typedWordHere c then typedDeclaration g
    else plainStatement g

end

end ModuleLowering.Parse
