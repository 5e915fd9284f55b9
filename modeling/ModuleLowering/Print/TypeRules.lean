import ModuleLowering.Print.Pattern

/-!
Types and declarations of types.
-/

set_option autoImplicit false

namespace ModuleLowering.Print

section
variable (p : Printer)

def typeLevel (t : Node) : Nat :=
  match t.form with
  | .functionType | .constructorType _ | .conditionalType => 0
  | .unionType => 1
  | .intersectionType => 2
  | .typeOperator _ | .inferType | .typeQuery => 3
  | _ => 4

def typeAbove (level : Nat) (t : Node) : Print Unit := wrapIf (typeLevel t < level) (p t .plain)

def separatedTypes (sep : String) (level : Nat) (ts : List Node) : Print Unit :=
  separated sep (ts.map (typeAbove p level))

/-- A lone type parameter could be taken for a tag where tags are allowed. -/
def typeParameters (ps : List Node) : Print Unit := do
  let sheet ← get
  match ps with
  | [one] =>
    emit "<"
    p one .plain
    if sheet.hasTags then emit ","
    emit ">"
  | _ => spreadOut "<" ">" 0 false (ps.map fun q => p q .plain)

def signatureLines (ms : List Node) : Print Unit :=
  braces ms.isEmpty (each (ms.map fun m => do
    commentsAt m.span
    indentation
    p m .plain
    emit ";"
    newline))

def signatureTail (tps ps result : Node) : Print Unit := do
  p tps .plain
  p ps .plain
  annotated p result

def mappedType (isReadonly isOptional : Option String) (b bound renamed t : Node) : Print Unit := do
  emit "\x7b "
  match isReadonly with
  | some w => emit (w ++ " ")
  | none => pure ()
  emit "["
  p b .plain
  emit " in "
  p bound .plain
  part p renamed Level.lowest " as " ""
  emit "]"
  emit (isOptional.getD "")
  emit " "
  part p t Level.lowest ": " ""
  emit " \x7d"

def type? (n : Node) : Option (Print Unit) :=
  match n with
  | .mk .typeParameters _ ps => some (typeParameters p ps)
  | .mk (.typeParameter ws) _ [b, bound, value] => some do
      each (ws.map fun w => emit (w ++ " "))
      p b .plain
      part p bound Level.lowest " extends " ""
      part p value Level.lowest " = " ""
  | .mk .typeArguments _ ts => some do
      emit "<"
      list p ts Level.lowest
      emit ">"
  | .mk (.typeWord text) _ _ => some (emit text)
  | .mk .typeReference _ [name, args] => some do
      p name .plain
      p args .plain
  | .mk .qualified _ [l, r] => some do
      p l .plain
      emit "."
      p r .plain
  | .mk .unionType _ ts => some (separatedTypes p " | " 1 ts)
  | .mk .intersectionType _ ts => some (separatedTypes p " & " 2 ts)
  | .mk .arrayType _ [t] => some do
      typeAbove p 4 t
      emit "[]"
  | .mk .tupleType _ ts => some do
      emit "["
      list p ts Level.lowest
      emit "]"
  | .mk (.tupleMember isOptional) _ [label, t] => some do
      p label .plain
      emit (if isOptional then "?: " else ": ")
      p t .plain
  | .mk .optionalType _ [t] => some do
      typeAbove p 4 t
      emit "?"
  | .mk .restType _ [t] => some do
      emit "..."
      p t .plain
  | .mk .functionType _ [tps, ps, result] => some do
      p tps .plain
      p ps .plain
      emit " => "
      p result .plain
  | .mk (.constructorType isAbstract) _ [tps, ps, result] => some do
      words [(isAbstract, "abstract")]
      emit "new "
      p tps .plain
      p ps .plain
      emit " => "
      p result .plain
  | .mk .typeLiteral _ ms => some (signatureLines p ms)
  | .mk (.propertySignature m) _ [k, t] => some do
      words [(m.isReadonly, "readonly")]
      key p k m.isComputed
      if m.isOptional then emit "?"
      annotated p t
  | .mk (.methodSignature kind m) _ [k, tps, ps, result] => some do
      words [(kind == .getter, "get"), (kind == .setter, "set")]
      key p k m.isComputed
      if m.isOptional then emit "?"
      signatureTail p tps ps result
  | .mk (.callSignature isConstruct) _ [tps, ps, result] => some do
      words [(isConstruct, "new")]
      signatureTail p tps ps result
  | .mk (.indexSignature m name) _ [k, t] => some do
      words [(m.isStatic, "static"), (m.isReadonly, "readonly")]
      emit ("[" ++ name ++ ": ")
      p k .plain
      emit "]"
      annotated p t
  | .mk (.mappedType isReadonly isOptional) _ [b, bound, renamed, t] =>
    some (mappedType p isReadonly isOptional b bound renamed t)
  | .mk .conditionalType _ [check, bound, yes, no] => some do
      typeAbove p 1 check
      emit " extends "
      typeAbove p 1 bound
      emit " ? "
      p yes .plain
      emit " : "
      p no .plain
  | .mk .inferType _ [t] => some do
      emit "infer "
      p t .plain
  | .mk (.typeOperator op) _ [t] => some do
      emit (op ++ " ")
      typeAbove p 3 t
  | .mk .indexedAccess _ [t, i] => some do
      typeAbove p 4 t
      emit "["
      p i .plain
      emit "]"
  | .mk .typeQuery _ [name, args] => some do
      emit "typeof "
      p name .plain
      p args .plain
  | .mk .importType _ [source, options, qualifier, args] => some do
      emit "import("
      p source .plain
      part p options Level.comma ", " ""
      emit ")"
      part p qualifier Level.lowest "." ""
      p args .plain
  | .mk (.templateType chunks) _ ts => some (templateText chunks (ts.map fun t => p t .plain))
  | .mk (.typePredicate asserts) _ [name, t] => some do
      words [(asserts, "asserts")]
      p name .plain
      part p t Level.lowest " is " ""
  | _ => none

/-- Expressions of an `extends` clause with their type arguments, by turns. -/
def heritage : List Node → List (Print Unit)
  | e :: args :: rest => (do
      p e (.under Level.call)
      p args .plain) :: heritage rest
  | _ => []

def enumLines : List Node → Print Unit
  | [] => pure ()
  | m :: ms => do
    commentsAt m.span
    indentation
    p m .plain
    if !ms.isEmpty then emit ","
    newline
    enumLines ms

def namespaceTail (body : Node) : Print Unit :=
  match body with
  | .mk (.namespaceDecl _ _) _ [name, inner] => do
    emit "."
    p name .plain
    namespaceTail inner
  | _ => part p body Level.lowest " " ""

def typeDeclaration? (n : Node) : Option (Print Unit) :=
  match n with
  | .mk .importEquals _ [b, value] => some do
      emit "import "
      p b .plain
      emit " = "
      if value.form matches .string _ then
        emit "require("
        p value .plain
        emit ")"
      else p value .plain
  | .mk .interface _ [b, tps, h, body] => some do
      emit "interface "
      p b .plain
      p tps .plain
      p h .plain
      emit " "
      p body .plain
  | .mk .heritage _ parts => some (if parts.isEmpty then pure () else do
      emit " extends "
      separated ", " (heritage p parts))
  | .mk (.typeAlias isDeclared) _ [b, tps, t] => some do
      words [(isDeclared, "declare")]
      emit "type "
      p b .plain
      p tps .plain
      emit " = "
      p t .plain
  | .mk (.enumDecl isConst isDeclared) _ (b :: ms) => some do
      words [(isDeclared, "declare"), (isConst, "const")]
      emit "enum "
      p b .plain
      emit " "
      braces ms.isEmpty (enumLines p ms)
  | .mk (.enumMember isComputed) _ [name, value] => some do
      key p name isComputed
      part p value Level.lowest " = " ""
  | .mk (.namespaceDecl keyword isDeclared) _ [name, body] => some do
      words [(isDeclared, "declare")]
      emit (keyword ++ " ")
      p name .plain
      namespaceTail p body
  | .mk (.globalDecl isDeclared) _ [body] => some do
      words [(isDeclared, "declare")]
      emit "global "
      p body .plain
  | _ => none

end

end ModuleLowering.Print
