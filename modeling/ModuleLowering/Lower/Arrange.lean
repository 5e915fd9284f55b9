import ModuleLowering.Tree.Form

/-!
The order of top-level statements. Each has a priority; greater ones come first, and equal ones
keep their order.
-/

set_option autoImplicit false

namespace ModuleLowering

abbrev Priority := Nat

namespace Priority

def ordinary : Priority := 1
def predeclaration : Priority := 2
def moduleFlag : Priority := 3

end Priority

structure Hints where
  entries : List (Span × Priority)
  deriving Repr

namespace Hints

def none : Hints := ⟨[]⟩

def insert (h : Hints) (place : Span) (p : Priority) : Hints := ⟨(place, p) :: h.entries⟩

def priorityOf (h : Hints) (place : Option Span) : Priority :=
  ((h.entries.find? fun (s, _) => some s == place).map Prod.snd).getD Priority.ordinary

end Hints

/-- Sorts by falling priority; items of one priority keep their order. -/
def arrange {α : Type} (items : List (Priority × α)) : List (Priority × α) :=
  items.mergeSort fun a b => decide (b.1 ≤ a.1)

end ModuleLowering
