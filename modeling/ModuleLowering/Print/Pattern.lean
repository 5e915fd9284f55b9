import ModuleLowering.Print.Expression

/-!
Names, patterns and parameters.
-/

set_option autoImplicit false

namespace ModuleLowering.Print

section
variable (p : Printer)

def splitRest (ns : List Node) : List Node × Option Node :=
  match ns.getLast? with
  | some n =>
    if n.form matches .bindingRest | .targetRest then (ns.dropLast, some n) else (ns, none)
  | none => (ns, none)

/-- Elements of an array pattern: a hole before the end, and the element before a rest, are
followed by a comma. -/
def patternItems (hasRest : Bool) : List Node → List (Print Unit)
  | [] => []
  | [n] => [do
      p n .plain
      if hasRest || n.form matches .hole then emit ","]
  | n :: ns => p n .plain :: patternItems hasRest ns

def bindingArray (ns : List Node) : Print Unit := do
  let (items, rest) := splitRest ns
  emit "["
  separated ", " (patternItems p rest.isSome items)
  match rest with
  | some r => do
    emit " "
    p r .plain
  | none => pure ()
  emit "]"

def targetArray (ns : List Node) : Print Unit := do
  let (items, rest) := splitRest ns
  emit "["
  separated ", " (patternItems p rest.isSome items)
  match rest with
  | some r => do
    if !items.isEmpty then emit " "
    p r .plain
  | none => pure ()
  emit "]"

def bindsKey (k value : Node) : Bool :=
  match k.form, value with
  | .word w, .mk (.binder name _) _ _ => w == name
  | .word w, .mk .bindingDefault _ [.mk (.binder name _) _ _, _] => w == name
  | _, _ => false

def annotated (t : Node) : Print Unit := part p t Level.lowest ": " ""

def words (ws : List (Bool × String)) : Print Unit :=
  each (ws.map fun (isSet, w) => if isSet then emit (w ++ " ") else pure ())

def accessWord (m : Modifiers) : Bool × String := (m.access.isSome, m.access.getD "")

def pattern? (n : Node) : Option (Print Unit) :=
  match n with
  | .mk .absent _ _ => some (pure ())
  | .mk (.target name _) _ _ => some (emit name)
  | .mk (.binder name _) _ _ => some (emit name)
  | .mk (.mention name _ _) _ _ => some (emit name)
  | .mk (.word name) _ _ => some (emit name)
  | .mk (.privateWord name) _ _ => some (emit ("#" ++ name))
  | .mk .targetArray _ ns => some (targetArray p ns)
  | .mk .targetObject _ ns => some do
      emit "\x7b"
      list p ns Level.lowest
      emit "\x7d"
  | .mk .targetShorthand _ [t, value] => some do
      p t .plain
      part p value Level.comma " = " ""
  | .mk (.targetProperty isComputed) _ [k, t] => some do
      key p k isComputed
      emit ": "
      p t .plain
  | .mk .targetDefault _ [t, value] => some do
      p t .plain
      emit " = "
      p value (.under Level.comma)
  | .mk .targetRest _ [t] => some do
      emit "..."
      p t .plain
  | .mk .bindingArray _ ns => some (bindingArray p ns)
  | .mk .bindingObject _ ns => some do
      emit "\x7b"
      if !ns.isEmpty then
        emit " "
        list p ns Level.lowest
        emit " "
      emit "\x7d"
  | .mk (.bindingProperty _ isComputed) _ [k, value] => some do
      if isComputed || !(bindsKey k value) then
        key p k isComputed
        emit ": "
      p value .plain
  | .mk .bindingDefault _ [q, value] => some do
      p q .plain
      emit " = "
      p value (.under Level.comma)
  | .mk .bindingRest _ (q :: t :: ds) => some do
      decorators p ds
      emit "..."
      p q .plain
      annotated p t
  | .mk .parameters _ ns => some do
      emit "("
      list p ns Level.lowest
      emit ")"
  | .mk (.parameter m) _ (q :: t :: value :: ds) => some do
      decorators p ds
      words [accessWord m, (m.isReadonly, "readonly")]
      p q .plain
      if m.isOptional then emit "?"
      annotated p t
      part p value Level.comma " = " ""
  | _ => none

end

end ModuleLowering.Print
