import ModuleLowering.Lower.Table
import ModuleLowering.Text.Identifier
import ModuleLowering.Tree.Names

/-!
Code that is made up. None of the names in it was looked up, so that no later pass takes it for
code of the module.
-/

set_option autoImplicit false

namespace ModuleLowering.Made

def ident (name : String) : Node := .made (.ident name .none) []

def word (name : String) : Node := .made (.word name) []

def string (value : String) : Node := .made (.string value) []

def number (n : Nat) : Node := .made (.number (Numeral.ofNat n)) []

/-- `object.property`, or `object["property"]` for what no dot can be followed by. -/
def member (object : Node) (property : String) : Node :=
  if isIdentifierName property then .made (.member false) [object, word property]
  else .made (.index false) [object, string property]

def call (callee : Node) (args : List Node) : Node :=
  .made (.call false) (callee :: Node.absent :: args)

def assign (target value : Node) : Node := .made (.assign .plain) [target, value]

def expression (e : Node) (span : Option Span) : Node := .mk .expression span [e]

def varDeclaration (name : String) (value : Node) (span : Option Span) : Node :=
  .mk (.varDecl .functionScoped false) span
    [.made (.declarator false) [.made (.binder name none) [], Node.absent, value]]

def parameter (name : String) : Node :=
  .made (.parameter Modifiers.none) [.made (.binder name none) [], Node.absent, Node.absent]

def function (names : List String) (statements : List Node) : Node :=
  .made (.function ⟨.expression, false, false, false, false⟩)
    [Node.absent, Node.absent, .made .parameters (names.map parameter), Node.absent,
    .made (.body []) statements]

def object (properties : List (String × Node)) : Node :=
  .made .object (properties.map fun (k, v) => .made (.property false false) [word k, v])

def exportAssignment (name : String) (value : Node) : Node :=
  assign (member (ident "exports") name) value

/-- `exports.b = exports.a = value` for the names `a`, `b`. -/
def exportChain (names : List String) (value : Node) : Node :=
  names.foldl (fun v name => exportAssignment name v) value

def defineExport (key descriptor : Node) : Node :=
  call (member (ident "Object") "defineProperty") [ident "exports", key, descriptor]

def getter (value : Node) : Node :=
  object [("enumerable", .made (.boolean true) []),
    ("get", function [] [.made .returnStmt [value]])]

def require (path : String) : Node := call (ident "require") [string path]

def moduleExports (value : Node) : Node := assign (member (ident "module") "exports") value

/-- Copies the properties of a module, other than `default`, as getters. -/
def exportStar (binding : String) : Node :=
  let skip := Node.made .ifStmt
    [.made (.binary .strictEqual) [ident "key", string "default"], .made .returnStmt
    [Node.absent], Node.absent]
  let define := expression (defineExport (ident "key")
    (getter (.made (.index false) [ident binding, ident "key"]))) none
  let keys := call (member (ident "Object") "keys") [ident binding]
  call (member keys "forEach") [function ["key"] [skip, define]]

/-- `(0, value)`, which calls a function without an object. -/
def detached (value : Node) : Node := .made .sequence [number 0, value]

end ModuleLowering.Made

namespace ModuleLowering

def Redirect.toNode : Redirect → Node
  | .binding name => Made.ident name
  | .member object property => Made.member (Made.ident object) property

end ModuleLowering
