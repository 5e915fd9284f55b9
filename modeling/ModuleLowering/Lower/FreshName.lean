import ModuleLowering.Text.Identifier

/-!
Names that occur nowhere else.
-/

set_option autoImplicit false

namespace ModuleLowering

structure TakenNames where
  names : List String
  deriving Repr

namespace TakenNames

/-- What a made-up name is built around: a hint made into a name, without its leading underscores
and trailing digits. -/
def stem (hint : String) : List Char :=
  let name := (toIdentifier hint).toList.dropWhile (· == '_')
  (name.reverse.dropWhile isAsciiDigit).reverse

/-- The candidates in order: `_stem`, `_stem2`, `_stem3`, … -/
def candidate (hint : String) (attempt : Nat) : String :=
  String.ofList ('_' :: stem hint) ++ (if attempt = 0 then "" else toString (attempt + 1))

/-- The first candidate that is not taken. Among more candidates than there are taken names, one
is free. -/
def firstFree (t : TakenNames) (hint : String) : String :=
  let attempts := (List.range (t.names.length + 1)).map (candidate hint)
  (attempts.find? fun name => !(t.names.contains name)).getD (candidate hint (t.names.length + 1))

def generate (t : TakenNames) (hint : String) : String × TakenNames :=
  let name := t.firstFree hint
  (name, ⟨name :: t.names⟩)

end TakenNames

end ModuleLowering
