import ModuleLowering.Print.Literal
import ModuleLowering.Print.Sheet

/-!
Where an expression stands, which decides whether it needs parentheses.
-/

set_option autoImplicit false

namespace ModuleLowering

inductive Lead where
  | nothing | statement | arrowBody | defaultExport
  deriving DecidableEq, Repr

structure Place where
  /-- An expression that holds together no tighter than this is put in parentheses. -/
  level : Level
  /-- In the head of a `for`, where `in` would be misread. -/
  noIn : Bool
  /-- Behind `new`, where a call would be misread. -/
  noCall : Bool
  lead : Lead
  /-- The sign right in front: `+` and `-` must not touch another one. -/
  sign : Option UnaryOp
  deriving DecidableEq, Repr

namespace Place

def under (level : Level) : Place := ⟨level, false, false, .nothing, none⟩

def plain : Place := .under Level.lowest

def first (p : Place) (level : Level) : Place := { p with level, noCall := false, sign := none }

def inner (p : Place) (level : Level) : Place := ⟨level, p.noIn, false, .nothing, none⟩

/-- What is put in parentheses no longer starts anything. -/
def wrapped (p : Place) (needed : Bool) : Place :=
  if needed then { p with lead := .nothing, sign := none } else p

end Place

abbrev Printer := Node → Place → Print Unit

end ModuleLowering
