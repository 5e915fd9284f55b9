import ModuleLowering.Print.Pattern

/-!
Functions and classes.
-/

set_option autoImplicit false

namespace ModuleLowering.Print

section
variable (p : Printer)

/-- Whether a node is a declaration standing as a statement. Functions and classes that are
expressions stand in an expression statement. -/
def isDeclaration (n : Node) : Bool :=
  match n.form with
  | .function t => t.role == .declaration
  | .classDef t => !t.isExpression
  | .varDecl .. | .importEquals | .interface | .typeAlias _ | .enumDecl .. | .namespaceDecl ..
  | .globalDecl _ => true
  | _ => false

def endsWithSemicolon (n : Node) : Bool :=
  n.form matches .varDecl .. | .typeAlias _ | .importEquals

def declarationLine (n : Node) : Print Unit := do
  p n .plain
  if endsWithSemicolon n then emit ";"
  newline

def statement (n : Node) : Print Unit := do
  commentsAt n.span
  indentation
  if isDeclaration n then declarationLine p n else p n .plain

def statements (ns : List Node) : Print Unit := each (ns.map (statement p))

/-- Statements with the leading string statements. Without those, a first statement that is only a
string is put in parentheses, so that it stays a statement. -/
def directivesAndStatements (ds : List Directive) (ns : List Node) : Print Unit := do
  for d in ds do
    indentation
    emit (quotedDirective d.raw ++ ";")
    newline
  match ds, ns with
  | [], .mk .expression _ [.mk (.string value) _ _] :: rest =>
    emit ("(" ++ quoted value ++ ");")
    newline
    statements p rest
  | _, _ => statements p ns

/-- A comment with a line break beside it keeps an empty body open. -/
def keepsOpen (cs : List Comment) : Bool := cs.any fun c => c.afterLineBreak || c.beforeLineBreak

/-- The body of a function. The comments before its last brace end it. -/
def functionBody (span : Option Span) (ds : List Directive) (ns : List Node) : Print Unit := do
  let last ← match span with
    | some s => if s.stop > 0 then takeComments (s.stop - 1) else pure []
    | none => pure []
  braces (ds.isEmpty && ns.isEmpty && !(keepsOpen last)) do
    directivesAndStatements p ds ns
    comments last

def functionTail (tps ps result body : Node) : Print Unit := do
  p tps .plain
  p ps .plain
  annotated p result
  if body.isAbsent then emit ";"
  else
    emit " "
    p body .plain

def function (t : FunctionTraits) (name tps ps result body : Node) (place : Place) : Print Unit :=
  do
  let needed :=
    t.role == .expression && (place.lead == .statement ||
      place.lead == .defaultExport || t.isWrapped)
  wrapIf needed do
    words [(t.isDeclared, "declare"), (t.isAsync, "async")]
    emit "function"
    if t.isGenerator then emit "* "
    if !name.isAbsent then
      if !t.isGenerator then emit " "
      p name .plain
    functionTail p tps ps result body

def arrow (isAsync isExpression isWrapped : Bool) (tps ps result body : Node) (place : Place) :
    Print Unit := do
  let needed := place.level ≥ Level.assign || isWrapped
  wrapIf needed do
    words [(isAsync, "async")]
    p tps .plain
    p ps .plain
    annotated p result
    emit " => "
    match isExpression, body with
    | true, .mk (.body _) _ [.mk .expression _ [e]] =>
      p e { place.inner Level.comma with lead := .arrowBody }
    | _, _ => p body .plain

def methodWords (kind : MethodKind) (t : FunctionTraits) : Print Unit := do
  words [(kind == .getter, "get"), (kind == .setter, "set"), (t.isAsync, "async")]
  if t.isGenerator then emit "*"

def methodTail (f : Node) : Print Unit :=
  match f with
  | .mk (.function _) _ [_, tps, ps, result, body] => functionTail p tps ps result body
  | _ => pure ()

def functionTraits (f : Node) : FunctionTraits :=
  match f.form with
  | .function t => t
  | _ => ⟨.method, false, false, false, false⟩

def classDef (t : ClassTraits) (name tps base baseArgs impls body : Node) (ds : List Node)
    (place : Place) :
    Print Unit := do
  let needed := t.isExpression && (place.lead == .statement || place.lead == .defaultExport)
  wrapIf needed do
    decorators p ds
    words [(t.isDeclared, "declare"), (t.isAbstract, "abstract")]
    emit "class"
    if !name.isAbsent then
      emit " "
      p name .plain
      p tps .plain
    if !base.isAbsent then
      emit " extends "
      p base (.under Level.update)
      p baseArgs .plain
    part p impls Level.lowest " implements " ""
    emit " "
    p body .plain

def memberLine (n : Node) : Print Unit := do
  commentsAt n.span
  indentation
  p n .plain
  newline

def function? (n : Node) (place : Place) : Option (Print Unit) :=
  match n with
  | .mk (.function t) _ [name, tps, ps, result, body] =>
    some (function p t name tps ps result body place)
  | .mk (.arrow isAsync isExpression isWrapped) _ [tps, ps, result, body] =>
    some (arrow p isAsync isExpression isWrapped tps ps result body place)
  | .mk (.body ds) span ns => some (functionBody p span ds ns)
  | .mk (.accessor kind isComputed) _ [k, f] => some do
      methodWords kind (functionTraits f)
      key p k isComputed
      methodTail p f
  | .mk (.classDef t) _ (name :: tps :: base :: baseArgs :: impls :: body :: ds) =>
    some (classDef p t name tps base baseArgs impls body ds place)
  | .mk .implementsList _ ts => some (list p ts Level.lowest)
  | .mk .classBody _ ms => some (braces ms.isEmpty (each (ms.map (memberLine p))))
  | .mk (.method kind m) _ (k :: f :: ds) => some do
      decorators p ds
      words [accessWord m, (m.isAbstract, "abstract"), (m.isStatic, "static")]
      methodWords kind (functionTraits f)
      key p k m.isComputed
      if m.isOptional then emit "?"
      methodTail p f
  | .mk (.field m) _ (k :: t :: value :: ds) => some do
      decorators p ds
      words [(m.isDeclared, "declare"), accessWord m, (m.isAbstract, "abstract"),
             (m.isStatic, "static"), (m.isReadonly, "readonly"), (m.isAccessor, "accessor")]
      key p k m.isComputed
      if m.isOptional then emit "?"
      if m.isDefinite then emit "!"
      annotated p t
      part p value Level.comma " = " ""
      emit ";"
  | .mk .staticBlock _ ns => some do
      emit "static "
      braces ns.isEmpty (statements p ns)
  | _ => none

end

end ModuleLowering.Print
