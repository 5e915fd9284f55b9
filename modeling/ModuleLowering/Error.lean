import ModuleLowering.Tree.Form

/-!
Why a module cannot be lowered.
-/

set_option autoImplicit false

namespace ModuleLowering

inductive Error where
  /-- The name is kept for the module flag. -/
  | illegalExport (name : String) (span : Span)
  | unknownSourceType (path reason : String)
  | parseFailed
  | redeclared (name : String)
  | invalidOptions (problem : String)
  | unreadable (path reason : String)
  deriving DecidableEq, Repr

def Error.message : Error → String
  | illegalExport name span => s!"Illegal export \"{name}\" at {span.start}..{span.stop}"
  | unknownSourceType path reason =>
    s!"Failed to determine source type for {path}: Unknown file extension: {reason}"
  | parseFailed => "Parsing failed:"
  | redeclared name =>
    s!"Semantic analysis failed: Identifier \x60{name}\x60 has already been declared"
  | invalidOptions problem => s!"Invalid transform options: {problem}"
  | unreadable path reason => s!"Failed to read {path}: {reason}"

theorem bind_eq_ok_iff {ε α β : Type} {x : Except ε α} {f : α → Except ε β} {b : β} :
    x >>= f = .ok b ↔ ∃ a, x = .ok a ∧ f a = .ok b := by
  cases x with
  | error e => simp [bind, Except.bind]
  | ok a => simp [bind, Except.bind]

end ModuleLowering
