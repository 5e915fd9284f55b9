import ModuleLowering.Print.Pattern

/-!
Elements written as tags.
-/

set_option autoImplicit false

namespace ModuleLowering.Print

section
variable (p : Printer)

def element (name args attrs closing : Node) (children : List Node) : Print Unit := do
  emit "<"
  p name .plain
  p args .plain
  p attrs .plain
  if closing.isAbsent then emit " />"
  else
    emit ">"
    each (children.map fun c => p c .plain)
    emit "</"
    p closing .plain
    emit ">"

def attributeText (name value : Node) : Print Unit := do
  p name .plain
  part p value Level.lowest "=" ""

def tag? (n : Node) : Option (Print Unit) :=
  match n with
  | .mk .element _ (name :: args :: attrs :: closing :: children) =>
    some (element p name args attrs closing children)
  | .mk .fragment _ children => some do
      emit "<>"
      each (children.map fun c => p c .plain)
      emit "</>"
  | .mk .attributes _ as => some (each (as.map fun a => do
      emit " "
      p a .plain))
  | .mk .tagAttribute _ [name, value] => some (attributeText p name value)
  | .mk .spreadAttribute _ [e] => some do
      emit "\x7b..."
      p e (.under Level.comma)
      emit "\x7d"
  | .mk (.tagWord name) _ _ => some (emit name)
  | .mk (.tagRef name _) _ _ => some (emit name)
  | .mk .tagMember _ [object, w] => some do
      p object .plain
      emit "."
      p w .plain
  | .mk (.tagText raw) _ _ => some (emit raw)
  | .mk (.tagString raw) _ _ => some (emit (quotedAttribute raw))
  | .mk .container _ [e] => some do
      emit "\x7b"
      p e .plain
      emit "\x7d"
  | .mk .spreadChild _ [e] => some do
      emit "\x7b..."
      p e .plain
      emit "\x7d"
  | _ => none

end

end ModuleLowering.Print
