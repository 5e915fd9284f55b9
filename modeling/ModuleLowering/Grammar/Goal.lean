import ModuleLowering.Grammar.Cursor
import ModuleLowering.Grammar.Target

/-!
The constructs that contain each other. A rule of the grammar is a plain function of the rules it
refers back to, given as a function of goals; the knot is tied once, over a bound on the depth.
-/

set_option autoImplicit false

namespace ModuleLowering

inductive Goal where
  | statement
  | block
  | expression
  | assignment
  | operators (above : Level)
  | unary
  | postfixed
  | construct
  | pattern
  | classDef (isExpression : Bool)
  /-- A tag with what it encloses; its last `>` is left to the rule around it. -/
  | element
  | type
  deriving DecidableEq, Repr

namespace Parse

def variableName : Parse String := do
  match ← token with
  | .word name escaped =>
    let a ← around
    guard !(isReserved name)
    guard !(name == "yield" && a.inGenerator && !escaped)
    guard !(name == "await" && a.inAsync && !escaped)
    advance
    return name
  | _ => fail

def binder : Parse Node := do
  let s ← start
  let name ← variableName
  node (.binder name none) s []

def identifier : Parse Node := do
  let s ← start
  let name ← variableName
  node (.ident name .none) s []

def anyWord : Parse Node := do
  let s ← start
  match ← token with
  | .word name _ => advance; node (.word name) s []
  | _ => fail

def memberName : Parse Node := do
  let s ← start
  match ← token with
  | .word name _ => advance; node (.word name) s []
  | .privateWord name => advance; node (.privateWord name) s []
  | _ => fail

def moduleName : Parse Node := do
  let s ← start
  match ← token with
  | .word name _ => advance; node (.word name) s []
  | .string value _ => advance; node (.string value) s []
  | _ => fail

def stringLiteral : Parse String := do
  match ← token with
  | .string value _ => advance; return value
  | _ => fail

def typedIf (p : String) (rule : Parse Node) : Parse Node := do
  if (← dialect).hasTypes && (← isPunct p) then rule else return Node.absent

def inBrackets {α : Type} (p : Parse α) : Parse α :=
  within (fun a => { a with allowIn := true, beforeColon := false }) p

def annotation (g : Goal → Parse Node) : Parse Node :=
  typedIf ":" do
    punct ":"
    inBrackets (g .type)

end Parse

end ModuleLowering
