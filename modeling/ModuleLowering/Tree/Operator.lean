/-!
The operators of the language, each with its spelling, and the binding strengths that decide
where an expression needs parentheses.
-/

set_option autoImplicit false

namespace ModuleLowering

/-- How tightly an expression holds together; larger is tighter. -/
abbrev Level := Nat

namespace Level

def lowest : Level := 0
def comma : Level := 1
def spread : Level := 2
def yieldLevel : Level := 3
def assign : Level := 4
def conditional : Level := 5
def coalesce : Level := 6
def logicalOr : Level := 7
def logicalAnd : Level := 8
def bitOr : Level := 9
def bitXor : Level := 10
def bitAnd : Level := 11
def equality : Level := 12
def compare : Level := 13
def shift : Level := 14
def add : Level := 15
def multiply : Level := 16
def power : Level := 17
def unary : Level := 18
def update : Level := 19
def newLevel : Level := 20
def call : Level := 21
def member : Level := 22

end Level

inductive UnaryOp where
  | minus | plus | not | complement | typeof | void | delete
  deriving DecidableEq, Repr

def UnaryOp.text : UnaryOp → String
  | minus => "-"
  | plus => "+"
  | not => "!"
  | complement => "~"
  | typeof => "typeof"
  | void => "void"
  | delete => "delete"

def UnaryOp.isWord : UnaryOp → Bool
  | typeof | void | delete => true
  | _ => false

def UnaryOp.all : List UnaryOp := [minus, plus, not, complement, typeof, void, delete]

inductive UpdateOp where
  | increment | decrement
  deriving DecidableEq, Repr

def UpdateOp.text : UpdateOp → String
  | increment => "++"
  | decrement => "--"

inductive BinaryOp where
  | equal | notEqual | strictEqual | strictNotEqual
  | less | lessEqual | greater | greaterEqual
  | shiftLeft | shiftRight | shiftRightZero
  | add | subtract | multiply | divide | remainder | power
  | bitOr | bitXor | bitAnd | isIn | instanceOf
  | logicalOr | logicalAnd | coalesce
  deriving DecidableEq, Repr

namespace BinaryOp

def text : BinaryOp → String
  | equal => "=="
  | notEqual => "!="
  | strictEqual => "==="
  | strictNotEqual => "!=="
  | less => "<"
  | lessEqual => "<="
  | greater => ">"
  | greaterEqual => ">="
  | shiftLeft => "<<"
  | shiftRight => ">>"
  | shiftRightZero => ">>>"
  | add => "+"
  | subtract => "-"
  | multiply => "*"
  | divide => "/"
  | remainder => "%"
  | power => "**"
  | bitOr => "|"
  | bitXor => "^"
  | bitAnd => "&"
  | isIn => "in"
  | instanceOf => "instanceof"
  | logicalOr => "||"
  | logicalAnd => "&&"
  | coalesce => "??"

def all : List BinaryOp :=
  [equal, notEqual, strictEqual, strictNotEqual, less, lessEqual, greater, greaterEqual,
   shiftLeft, shiftRight, shiftRightZero, add, subtract, multiply, divide, remainder, power,
   bitOr, bitXor, bitAnd, isIn, instanceOf, logicalOr, logicalAnd, coalesce]

def ofText? (s : String) : Option BinaryOp := all.find? (·.text == s)

def level : BinaryOp → Level
  | coalesce => Level.coalesce
  | logicalOr => Level.logicalOr
  | logicalAnd => Level.logicalAnd
  | bitOr => Level.bitOr
  | bitXor => Level.bitXor
  | bitAnd => Level.bitAnd
  | equal | notEqual | strictEqual | strictNotEqual => Level.equality
  | less | lessEqual | greater | greaterEqual | isIn | instanceOf => Level.compare
  | shiftLeft | shiftRight | shiftRightZero => Level.shift
  | add | subtract => Level.add
  | multiply | divide | remainder => Level.multiply
  | power => Level.power

def isLogical : BinaryOp → Bool
  | logicalOr | logicalAnd | coalesce => true
  | _ => false

end BinaryOp

inductive AssignOp where
  | plain
  | combined (op : BinaryOp)
  deriving DecidableEq, Repr

namespace AssignOp

def text : AssignOp → String
  | plain => "="
  | combined op => op.text ++ "="

def all : List AssignOp :=
  plain :: ([.add, .subtract, .multiply, .divide, .remainder, .power, .shiftLeft, .shiftRight,
    .shiftRightZero, .bitOr, .bitXor, .bitAnd, .logicalOr, .logicalAnd, .coalesce] : List
    BinaryOp).map combined

def ofText? (s : String) : Option AssignOp := all.find? (·.text == s)

end AssignOp

end ModuleLowering
