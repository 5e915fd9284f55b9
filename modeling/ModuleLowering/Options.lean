/-!
What can be chosen about the code that is made.
-/

set_option autoImplicit false

namespace ModuleLowering

structure Options where
  /-- A namespace import stands for the required module itself, and the module flag is assigned. -/
  strict : Bool
  /-- The module flag is assigned instead of defined as a hidden property. -/
  loose : Bool
  /-- A module with only a default export is also replaced by it. -/
  addExports : Bool
  deriving DecidableEq, Repr

namespace Options

def default : Options := ⟨false, false, false⟩

def plainFlag (o : Options) : Bool := o.strict || o.loose

end Options

end ModuleLowering
