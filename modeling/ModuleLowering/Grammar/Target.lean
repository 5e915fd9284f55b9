import ModuleLowering.Tree.Form

/-!
Expressions read again as assignment targets. Until its `=` is seen, a destructuring assignment is
an array or object literal.
-/

set_option autoImplicit false

namespace ModuleLowering.Node

/-- Targets that are a single place to store to: a name or a property. -/
def toSimpleTarget? : Node → Option Node
  | mk (.ident name ref) s ps => some (mk (.target name ref) s ps)
  | mk (.member false) s ps => some (mk (.member false) s ps)
  | mk (.index false) s ps => some (mk (.index false) s ps)
  | mk .asType s ps => some (mk .asType s ps)
  | mk .satisfiesType s ps => some (mk .satisfiesType s ps)
  | mk .typeAssertion s ps => some (mk .typeAssertion s ps)
  | mk .nonNull s ps => some (mk .nonNull s ps)
  | _ => none

def isRest (n : Node) : Bool := n.form matches .targetRest

mutual

def toTarget? : Node → Option Node
  | mk .array s ps => (toElements? ps).map (mk .targetArray s)
  | mk .object s ps => (toProperties? ps).map (mk .targetObject s)
  | n => n.toSimpleTarget?

def toElement? : Node → Option Node
  | mk .hole s ps => some (mk .hole s ps)
  | mk .spread s [value] => (toTarget? value).map fun t => mk .targetRest s [t]
  | mk (.assign .plain) s ps => some (mk .targetDefault s ps)
  | mk .array s ps => (toElements? ps).map (mk .targetArray s)
  | mk .object s ps => (toProperties? ps).map (mk .targetObject s)
  | n => n.toSimpleTarget?

/-- The elements of a pattern. What takes the rest comes last. -/
def toElements? : List Node → Option (List Node)
  | [] => some []
  | p :: ps =>
    match toElement? p, toElements? ps with
    | some t, some ts => if t.isRest && !ts.isEmpty then none else some (t :: ts)
    | _, _ => none

def toProperty? : Node → Option Node
  | mk (.property true _) s [_, value] =>
    (toSimpleTarget? value).map fun t => mk .targetShorthand s [t, absent]
  | mk (.property false computed) s [key, value] =>
    (toElement? value).map fun t => mk (.targetProperty computed) s [key, t]
  | mk .shorthandDefault s [name, value] =>
    (toSimpleTarget? name).map fun t => mk .targetShorthand s [t, value]
  | mk .spread s [value] => (toTarget? value).map fun t => mk .targetRest s [t]
  | _ => none

def toProperties? : List Node → Option (List Node)
  | [] => some []
  | p :: ps =>
    match toProperty? p, toProperties? ps with
    | some t, some ts => if t.isRest && !ts.isEmpty then none else some (t :: ts)
    | _, _ => none

end

end ModuleLowering.Node
