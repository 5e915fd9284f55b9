import ModuleLowering.Text.Numeral
import ModuleLowering.Tree.Operator

/-!
The syntax tree. A node has a form, which says what construct it is and carries everything about it
that is not itself a tree, the place it was read from, and its parts in source order.

Passes that care for a few constructs name those and treat all others alike, part by part. Names
come in five forms that are told apart by position: read (`ident`), written (`target`), declared
(`binder`), mentioned by a type or an export list (`mention`), and plain words that refer to
nothing (`word`).

Parentheses are no construct: `(x) = 1` and `x = 1` are one tree up to places. A tree that keeps a
node for them, which a caller that brings its own tree may have, is outside of what is described
here.
-/

set_option autoImplicit false

namespace ModuleLowering

structure Span where
  start : Nat
  stop : Nat
  deriving DecidableEq, Repr

/-- A declared name. The scope is given by its path from the program downwards. -/
structure Symbol where
  scope : List Nat
  name : String
  deriving DecidableEq, Repr

inductive Reference where
  /-- Not looked up: the name was not written in the source. -/
  | none
  /-- Looked up, and declared nowhere around it. -/
  | global
  | symbol (s : Symbol)
  deriving DecidableEq, Repr

inductive Meaning where
  | value | type | either
  deriving DecidableEq, Repr

inductive VariableKind where
  | functionScoped | blockScoped | constant | disposable | asyncDisposable
  deriving DecidableEq, Repr

def VariableKind.text : VariableKind → String
  | functionScoped => "var"
  | blockScoped => "let"
  | constant => "const"
  | disposable => "using"
  | asyncDisposable => "await using"

inductive FunctionRole where
  | declaration | expression | method
  deriving DecidableEq, Repr

structure FunctionTraits where
  role : FunctionRole
  isAsync : Bool
  isGenerator : Bool
  isDeclared : Bool
  /-- The source put parentheses right around it. -/
  isWrapped : Bool
  deriving DecidableEq, Repr

structure ClassTraits where
  isExpression : Bool
  isAbstract : Bool
  isDeclared : Bool
  deriving DecidableEq, Repr

inductive MethodKind where
  | plain | getter | setter
  deriving DecidableEq, Repr

structure Modifiers where
  isDeclared : Bool
  access : Option String
  isAbstract : Bool
  isStatic : Bool
  isReadonly : Bool
  isAccessor : Bool
  isOptional : Bool
  isDefinite : Bool
  isComputed : Bool
  deriving DecidableEq, Repr

def Modifiers.none : Modifiers :=
  ⟨false, Option.none, false, false, false, false, false, false, false⟩

def Modifiers.add (m : Modifiers) (w : String) : Modifiers :=
  match w with
  | "declare" => { m with isDeclared := true }
  | "abstract" => { m with isAbstract := true }
  | "static" => { m with isStatic := true }
  | "readonly" => { m with isReadonly := true }
  | "accessor" => { m with isAccessor := true }
  | "override" => m
  | w => { m with access := some w }

structure Directive where
  raw : String
  span : Option Span
  deriving DecidableEq, Repr

/-- What a node is. The comments list its parts; `?` marks a part that may be `absent`, and `*` a
run of parts. -/
inductive Form where
  | absent
  -- names
  | ident (name : String) (ref : Reference)
  | target (name : String) (ref : Reference)
  | binder (name : String) (symbol : Option Symbol)
  | mention (name : String) (ref : Reference) (meaning : Meaning)
  | word (name : String)
  | privateWord (name : String)
  -- literals
  | string (value : String)
  | number (value : Numeral)
  | bigint (digits : String)
  | boolean (value : Bool)
  | regExp (pattern flags : String)
  | nullLiteral
  | thisExpr
  | superExpr
  | metaProperty (text : String)
  | template (chunks : List String)
  -- expressions
  | hole
  | spread -- value
  | array -- elements*
  | object -- properties*
  | property (isShorthand isComputed : Bool) -- key, value
  | accessor (kind : MethodKind) (isComputed : Bool) -- key, function
  /-- `{ a = 1 }`, which only makes sense as an assignment pattern. -/
  | shorthandDefault -- ident, default
  | function (traits : FunctionTraits) -- name?, type parameters?, parameters, result type?, body?
  -- type parameters?, parameters, result type?, body
  | arrow (isAsync isExpression isWrapped : Bool)
  | parameters -- parameter*
  | parameter (modifiers : Modifiers) -- pattern, type?, default?, decorator*
  | body (directives : List Directive) -- statement*
  | classDef (traits : ClassTraits)
    -- name?, type parameters?, superclass?, its type arguments?, implements, members, decorator*
  | implementsList -- type*
  | classBody -- member*
  | method (kind : MethodKind) (modifiers : Modifiers) -- key, function, decorator*
  | field (modifiers : Modifiers) -- key, type?, value?, decorator*
  | staticBlock -- statement*
  | decorator -- expression
  | unary (op : UnaryOp) -- operand
  | update (op : UpdateOp) (isPrefixed : Bool) -- target
  | binary (op : BinaryOp) -- left, right
  | assign (op : AssignOp) -- target, value
  | conditional -- test, then, else
  | sequence -- expression*
  | call (isOptional : Bool) -- callee, type arguments?, argument*
  | construct -- callee, type arguments?, argument*
  | member (isOptional : Bool) -- object, word
  | index (isOptional : Bool) -- object, index
  | chain -- the outermost element of an optional chain
  | tagged -- tag, type arguments?, template
  | yieldExpr (isDelegate : Bool) -- value?
  | await -- value
  | importCall -- argument*
  | asType -- expression, type
  | satisfiesType -- expression, type
  | typeAssertion -- type, expression
  | nonNull -- expression
  | instantiation -- expression, type arguments
  -- assignment patterns
  | targetArray -- element*
  | targetObject -- property*
  | targetShorthand -- target, default?
  | targetProperty (isComputed : Bool) -- key, target
  | targetDefault -- target, default
  | targetRest -- target
  -- binding patterns
  | bindingArray -- element*
  | bindingObject -- property*
  | bindingProperty (isShorthand isComputed : Bool) -- key, pattern
  | bindingDefault -- pattern, default
  | bindingRest -- pattern, type?
  -- tags
  | element -- name, type arguments?, attributes, closing name?, child*
  | fragment -- child*
  | attributes -- attribute*
  | tagAttribute -- name, value?
  | spreadAttribute -- expression
  | tagWord (name : String)
  | tagRef (name : String) (ref : Reference)
  | tagMember -- object, word
  | tagText (raw : String)
  | tagString (raw : String)
  | container -- expression?
  | spreadChild -- expression
  -- statements
  | program (hashbang : Option String) (directives : List Directive) -- statement*
  | expression -- expression
  | empty
  | block -- statement*
  | varDecl (kind : VariableKind) (isDeclared : Bool) -- declarator*
  | declarator (isDefinite : Bool) -- pattern, type?, value?
  | ifStmt -- test, then, else?
  | forStmt -- init?, test?, update?, body
  | forIn -- left, right, body
  | forOf (isAwait : Bool) -- left, right, body
  | whileStmt -- test, body
  | doWhile -- body, test
  | withStmt -- object, body
  | switchStmt -- discriminant, case*
  | switchCase -- test?, statement*
  | tryStmt -- block, handler?, finalizer?
  | catchClause -- parameter?, type?, block
  | returnStmt -- value?
  | throwStmt -- value
  | breakStmt (label : Option String)
  | continueStmt (label : Option String)
  | labeled (label : String) -- body
  | debugger
  -- module declarations
  | importDecl (isType hasClause : Bool) (source : String) -- specifier*, attribute clause?
  | importDefault -- binder
  | importNamespace -- binder
  | importNamed (isType : Bool) -- imported name, binder
  | importClause (keyword : String) -- import attribute*
  | importAttribute -- key, value
  | exportNamed (isType : Bool) -- specifier*
  | exportFrom (isType : Bool) (source : String) -- specifier*, attribute clause?
  | exportSpecifier (isType : Bool) -- local name, exported name
  | exportDeclaration -- declaration
  | exportDefault -- declaration or expression
  | exportAll (isType : Bool) (source : String) -- exported name?, attribute clause?
  | exportAssignment -- expression
  | exportNamespace (name : String)
  -- declarations of types
  | importEquals -- binder, entity name or string
  | interface -- binder, type parameters?, heritage, members
  | heritage -- expression and type arguments? by turns
  | typeAlias (isDeclared : Bool) -- binder, type parameters?, type
  | enumDecl (isConst isDeclared : Bool) -- binder, enum member*
  | enumMember (isComputed : Bool) -- name, value?
  | namespaceDecl (keyword : String) (isDeclared : Bool) -- name, body?
  | namespaceBody (directives : List Directive) -- statement*
  | globalDecl (isDeclared : Bool) -- body
  -- types
  | typeParameters -- type parameter*
  | typeParameter (modifiers : List String) -- binder, constraint?, default?
  | typeArguments -- type*
  | typeWord (text : String)
  | typeReference -- entity name, type arguments?
  | qualified -- entity name, word
  | unionType -- type*
  | intersectionType -- type*
  | arrayType -- type
  | tupleType -- type*
  | tupleMember (isOptional : Bool) -- label, type
  | optionalType -- type
  | restType -- type
  | functionType -- type parameters?, parameters, result type
  | constructorType (isAbstract : Bool) -- type parameters?, parameters, result type
  | typeLiteral -- signature*
  | propertySignature (modifiers : Modifiers) -- key, type?
  | methodSignature (kind : MethodKind) (modifiers : Modifiers)
    -- key, type parameters?, parameters, result type?
  | callSignature (isConstruct : Bool) -- type parameters?, parameters, result type?
  | indexSignature (modifiers : Modifiers) (name : String) -- key type, type
  | mappedType (readonly optional : Option String) -- binder, constraint, renamed key?, type?
  | conditionalType -- check, extends, then, else
  | inferType -- type parameter
  | typeOperator (op : String) -- type
  | indexedAccess -- object type, index type
  | typeQuery -- entity name or import type, type arguments?
  | importType -- argument, options?, qualifier?, type arguments?
  | templateType (chunks : List String) -- type*
  | typePredicate (asserts : Bool) -- name, type?
  deriving DecidableEq, Repr

inductive Node where
  | mk (form : Form) (span : Option Span) (parts : List Node)

namespace Node

def form : Node → Form
  | mk f _ _ => f

def span : Node → Option Span
  | mk _ s _ => s

def parts : Node → List Node
  | mk _ _ ps => ps

def made (f : Form) (ps : List Node) : Node := mk f none ps

def absent : Node := made .absent []

def isAbsent (n : Node) : Bool :=
  match n with
  | mk .absent _ _ => true
  | _ => false

mutual

def depth : Node → Nat
  | mk _ _ ps => depthOfParts ps + 1

def depthOfParts : List Node → Nat
  | [] => 0
  | p :: ps => max (depth p) (depthOfParts ps)

end

mutual

def anyForm (p : Form → Bool) : Node → Bool
  | mk f _ ps => p f || anyFormOfParts p ps

def anyFormOfParts (p : Form → Bool) : List Node → Bool
  | [] => false
  | n :: ns => anyForm p n || anyFormOfParts p ns

end

end Node

end ModuleLowering
