import ModuleLowering.Error
import ModuleLowering.Grammar.Goal
import ModuleLowering.Lower.Made

/-!
The two functions that make modules of either kind look alike. One that is used is declared once,
under a name of its own, behind the rest of the module. It is written as a text with the name in it,
which is read like any other; its statements have places in that text.
-/

set_option autoImplicit false

namespace ModuleLowering

inductive Helper where
  /-- Gives the default export, or the whole module if it was not made from `export`
  declarations. -/
  | interopDefault
  /-- Gives all exports as one object. -/
  | interopWildcard
  deriving DecidableEq, Repr

namespace Helper

def hint : Helper → String
  | interopDefault => "interopRequireDefault"
  | interopWildcard => "interopRequireWildcard"

open Made

def placed (start : Nat) : Node → Node
  | .mk f _ ps => .mk f (some ⟨start, start⟩) ps

def block (ns : List Node) : Node := .made .block ns

def conditional (test yes no : Node) : Node := .made .conditional [test, yes, no]

def binary (op : BinaryOp) (l r : Node) : Node := .made (.binary op) [l, r]

def ifStmt (test yes no : Node) : Node := .made .ifStmt [test, yes, no]

def index (o i : Node) : Node := .made (.index false) [o, i]

def isModuleObject : Node := binary .logicalAnd (ident "obj") (member (ident "obj") "__esModule")

def declaration (name : String) (body length : Nat) (statements : List Node) : Node :=
  .mk (.function ⟨.declaration, false, false, false, false⟩) (some ⟨0, length⟩)
    [.made (.binder name none) [], Node.absent, .made .parameters [parameter "obj"], Node.absent,
     .mk (.body []) (some ⟨body, length⟩) statements]

def copyLoop (n : Nat) : Node :=
  let describe (name : String) := member (ident "Object") name
  let desc := varDeclaration "desc"
    (conditional (binary .logicalAnd (describe "defineProperty")
      (describe "getOwnPropertyDescriptor")) (call (describe "getOwnPropertyDescriptor")
      [ident "obj", ident "key"]) (object [])) none
  let define :=
    expression (call (describe "defineProperty") [ident "newObj", ident "key", ident "desc"]) none
  let copy :=
    expression (assign (index (ident "newObj") (ident "key")) (index (ident "obj") (ident "key")))
      none
  let hasAccessor := binary .logicalOr (member (ident "desc") "get") (member (ident "desc") "set")
  let isOwn := call (member (member (member (ident "Object") "prototype") "hasOwnProperty") "call")
    [ident "obj", ident "key"]
  let key := Node.made (.varDecl .functionScoped false)
    [.made (.declarator false) [.made (.binder "key" none) [], Node.absent, Node.absent]]
  placed (n + 125) (.made .forIn [key, ident "obj", block
    [placed (n + 156) (ifStmt isOwn (block
      [placed (n + 220) desc,
       placed (n + 348) (ifStmt hasAccessor
         (block [placed (n + 388) define])
         (block [placed (n + 461) copy]))]) Node.absent)]])

def declare (h : Helper) (name : String) : Node :=
  let n := byteLength name.toList
  match h with
  | interopDefault =>
    declaration name (n + 15) (n + 73)
      [placed (n + 17) (.made .returnStmt
        [conditional isModuleObject (ident "obj") (object [("default", ident "obj")])])]
  | interopWildcard =>
    let given := ifStmt isModuleObject
      (block [placed (n + 52) (.made .returnStmt [ident "obj"])])
      (block
        [placed (n + 79) (varDeclaration "newObj" (object []) none),
         placed (n + 100) (ifStmt (binary .notEqual (ident "obj") (.made .nullLiteral []))
           (block [copyLoop n]) Node.absent),
         placed (n + 525) (expression (assign (member (ident "newObj") "default") (ident "obj"))
         none), placed (n + 551) (.made .returnStmt [ident "newObj"])])
    declaration name (n + 15) (n + 571) [placed (n + 19) given]

/-- The text behind the name. -/
def rest : Helper → String
  | interopDefault => "(obj) \x7b return obj && obj.__esModule ? obj : \x7b default: obj \x7d; \x7d"
  | interopWildcard => "(obj) \x7b
  if (obj && obj.__esModule) \x7b
    return obj;
  \x7d else \x7b
    var newObj = \x7b\x7d;
    if (obj != null) \x7b
      for (var key in obj) \x7b
        if (Object.prototype.hasOwnProperty.call(obj, key)) \x7b
          var desc = Object.defineProperty && Object.getOwnPropertyDescriptor ? " ++
      "Object.getOwnPropertyDescriptor(obj, key) : \x7b\x7d;
          if (desc.get || desc.set) \x7b
            Object.defineProperty(newObj, key, desc);
          \x7d else \x7b
            newObj[key] = obj[key];
          \x7d
        \x7d
      \x7d
    \x7d
    newObj.default = obj;
    return newObj;
  \x7d
\x7d"

def text (h : Helper) (name : String) : String := "function " ++ name ++ h.rest

/-- Reads the text. It can only be at fault in the name: the rest says the same behind every name,
and that is written down in `declare`. -/
def read (h : Helper) (text : String) : Except Error Node :=
  let (token, after) := readToken (text.toList.drop 9)
  let c := { Cursor.ofText ⟨false, false, false, false⟩ [] 9 with token, after }
  match Parse.binder c with
  | .done (.mk (.binder name _) _ _) _ =>
    if text.toList.take 9 = "function ".toList ∧ after = h.rest.toList then .ok (h.declare name)
    else .error .parseFailed
  | _ => .error .parseFailed

end Helper

end ModuleLowering
