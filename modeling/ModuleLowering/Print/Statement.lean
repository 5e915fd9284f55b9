import ModuleLowering.Print.Function
import ModuleLowering.Print.TypeRules
import ModuleLowering.Tree.Names

/-!
Statements and module declarations.
-/

set_option autoImplicit false

namespace ModuleLowering.Print

section
variable (p : Printer)

def expr (n : Node) : Print Unit := p n .plain

def blockBraces (ns : List Node) : Print Unit := braces ns.isEmpty (statements p ns)

def body (n : Node) : Print Unit :=
  match n with
  | .mk .block _ ns => do
    emit " "
    blockBraces p ns
    newline
  | .mk .empty _ _ => do
    emit ";"
    newline
  | _ => do
    spaceNext
    statement p n

/-- A statement that ends in an `if` without `else` would take the `else` that follows it. -/
def endsInOpenIf : Node → Bool
  | .mk .ifStmt _ [_, _, no] => no.isAbsent || endsInOpenIf no
  | .mk .forStmt _ [_, _, _, b] => endsInOpenIf b
  | .mk .forIn _ [_, _, b] => endsInOpenIf b
  | .mk (.forOf _) _ [_, _, b] => endsInOpenIf b
  | .mk .whileStmt _ [_, b] => endsInOpenIf b
  | .mk .withStmt _ [_, b] => endsInOpenIf b
  | .mk (.labeled _) _ [b] => endsInOpenIf b
  | _ => false

def ifTail (test yes no : Node) (elseTail : Print Unit) : Print Unit := do
  emit "if ("
  expr p test
  emit ")"
  let closeWith := if no.isAbsent then newline else emit " "
  match yes with
  | .mk .block _ ns =>
    emit " "
    blockBraces p ns
    closeWith
  | _ =>
    if endsInOpenIf yes then
      emit " "
      braces false (statement p yes)
      closeWith
    else
      body p yes
      if !no.isAbsent then indentation
  if !no.isAbsent then
    emit "else"
    elseTail

/-- An `if` from its word on. A chain of `else if` stays at one level. -/
def ifFrom : Node → Print Unit
  | .mk .ifStmt _ [test, yes, no] =>
    let tail := ifFrom no
    ifTail p test yes no (if no.form matches .ifStmt then do
        emit " "
        tail
      else body p no)
  | _ => pure ()

def varDecl (kind : VariableKind) (isDeclared : Bool) (ds : List Node) (place : Place) :
    Print Unit := do
  words [(isDeclared, "declare")]
  emit (kind.text ++ " ")
  separated ", " (ds.map fun d => p d place)

def doWhile (b test : Node) : Print Unit := do
  emit "do"
  match b with
  | .mk .block _ ns =>
    emit " "
    blockBraces p ns
    emit " "
  | .mk .empty _ _ => statement p b
  | _ =>
    newline
    deeper (statement p b)
    indentation
  emit "while ("
  expr p test
  emit ");"
  newline

def jump (word : String) (label : Option String) : Print Unit :=
  emit (word ++ (match label with | some l => " " ++ l | none => "") ++ ";\n")

def tryTail (block handler finalizer : Node) : Print Unit := do
  emit "try "
  blockBraces p block.parts
  match handler with
  | .mk .catchClause _ [param, t, b] =>
    emit " catch"
    if !param.isAbsent then
      emit " ("
      p param .plain
      annotated p t
      emit ")"
    emit " "
    blockBraces p b.parts
  | _ => pure ()
  if !finalizer.isAbsent then
    emit " finally "
    blockBraces p finalizer.parts
  newline

def switchCase (n : Node) : Print Unit :=
  match n with
  | .mk .switchCase span (test :: ns) => do
    commentsAt span
    indentation
    if test.isAbsent then emit "default"
    else
      emit "case "
      expr p test
    emit ":"
    match ns with
    | [one] => body p one
    | _ =>
      newline
      deeper (statements p ns)
  | _ => pure ()

def fromSource (source : String) (clause : Node) : Print Unit := do
  emit (quoted source)
  part p clause Level.lowest " " ""
  emit ";"
  newline

def isNamed (n : Node) : Bool := n.form matches .importNamed _

def renamed (name other : Node) : Print Unit := do
  p name .plain
  if name.nameText != other.nameText then
    emit " as "
    p other .plain

def importDecl (isType hasClause : Bool) (source : String) (parts : List Node) : Print Unit := do
  let specifiers := parts.dropLast
  let clause := parts.getLastD Node.absent
  emit "import "
  words [(isType, "type")]
  if hasClause then
    let named := specifiers.filter isNamed
    let plain := (specifiers.filter fun n => !(isNamed n)).map fun n => p n .plain
    let braced : List (Print Unit) :=
      if named.isEmpty && !plain.isEmpty then []
      else if named.isEmpty then [emit "\x7b\x7d"]
      else [do
        emit "\x7b "
        list p named Level.lowest
        emit " \x7d"]
    separated ", " (plain ++ braced)
    emit " from "
  fromSource p source clause

def exportSpecifiers (ns : List Node) : Print Unit := do
  emit "\x7b"
  if !ns.isEmpty then
    emit " "
    list p ns Level.lowest
    emit " "
  emit "\x7d"

def statementFrom? (n : Node) : Option (Print Unit) :=
  match n with
  | .mk .expression _ [e] => some do
      p e { Place.plain with lead := .statement }
      emit ";"
      newline
  | .mk .empty _ _ => some do
      emit ";"
      newline
  | .mk .block _ ns => some do
      blockBraces p ns
      newline
  | .mk .ifStmt .. => some (ifFrom p n)
  | .mk .forStmt _ [init, test, step, b] => some do
      emit "for ("
      p init { Place.plain with noIn := true }
      emit ";"
      part p test Level.lowest " " ""
      emit ";"
      part p step Level.lowest " " ""
      emit ")"
      body p b
  | .mk .forIn _ [l, r, b] => some do
      emit "for ("
      p l { Place.plain with noIn := true }
      emit " in "
      expr p r
      emit ")"
      body p b
  | .mk (.forOf isAwait) _ [l, r, b] => some do
      emit (if isAwait then "for await (" else "for (")
      p l { Place.plain with noIn := true }
      emit " of "
      p r (.under Level.comma)
      emit ")"
      body p b
  | .mk .whileStmt _ [test, b] => some do
      emit "while ("
      expr p test
      emit ")"
      body p b
  | .mk .doWhile _ [b, test] => some (doWhile p b test)
  | .mk .withStmt _ [object, b] => some do
      emit "with ("
      expr p object
      emit ")"
      body p b
  | .mk .switchStmt _ (d :: cases) => some do
      emit "switch ("
      expr p d
      emit ") "
      braces cases.isEmpty (each (cases.map (switchCase p)))
      newline
  | .mk .tryStmt _ [block, handler, finalizer] => some (tryTail p block handler finalizer)
  | .mk .returnStmt _ [e] => some do
      emit "return"
      part p e Level.lowest " " ""
      emit ";"
      newline
  | .mk .throwStmt _ [e] => some do
      emit "throw "
      expr p e
      emit ";"
      newline
  | .mk (.breakStmt label) _ _ => some (jump "break" label)
  | .mk (.continueStmt label) _ _ => some (jump "continue" label)
  | .mk (.labeled label) _ [b] => some do
      emit (label ++ ":")
      body p b
  | .mk .debugger _ _ => some do
      emit "debugger;"
      newline
  | .mk (.importDecl isType hasClause source) _ parts =>
    some (importDecl p isType hasClause source parts)
  | .mk (.exportNamed isType) _ ns => some do
      emit "export "
      words [(isType, "type")]
      exportSpecifiers p ns
      emit ";"
      newline
  | .mk (.exportFrom isType source) _ parts => some do
      emit "export "
      words [(isType, "type")]
      exportSpecifiers p parts.dropLast
      emit " from "
      fromSource p source (parts.getLastD Node.absent)
  | .mk (.exportAll isType source) _ [name, clause] => some do
      emit "export "
      words [(isType, "type")]
      emit "*"
      part p name Level.lowest " as " ""
      emit " from "
      fromSource p source clause
  | .mk .exportDeclaration _ [d] => some do
      emit "export "
      declarationLine p d
  | .mk .exportDefault _ [d] => some do
      emit "export default "
      match d.form with
      | .function ⟨.declaration, _, _, _, _⟩ | .classDef ⟨false, _, _⟩ | .interface => p d .plain
      | _ =>
        p d { Place.under Level.comma with lead := .defaultExport }
        emit ";"
      newline
  | .mk .exportAssignment _ [e] => some do
      emit "export = "
      expr p e
      emit ";"
      newline
  | .mk (.exportNamespace name) _ _ => some do
      emit ("export as namespace " ++ name ++ ";")
      newline
  | _ => none

def statementPart? (n : Node) (place : Place) : Option (Print Unit) :=
  match n with
  | .mk (.declarator isDefinite) _ [q, t, value] => some do
      p q .plain
      if isDefinite then emit "!"
      annotated p t
      if !value.isAbsent then
        emit " = "
        p value { Place.under Level.comma with noIn := place.noIn }
  | .mk .importDefault _ [b] => some (p b .plain)
  | .mk .importNamespace _ [b] => some do
      emit "* as "
      p b .plain
  | .mk (.importNamed isType) _ [name, b] => some do
      words [(isType, "type")]
      renamed p name b
  | .mk (.exportSpecifier isType) _ [name, other] => some do
      words [(isType, "type")]
      renamed p name other
  | .mk (.importClause keyword) _ items => some do
      emit (keyword ++ " ")
      exportSpecifiers p items
  | .mk .importAttribute _ [k, value] => some do
      p k .plain
      emit ": "
      p value .plain
  | .mk (.namespaceBody ds) _ ns => some
      (braces (ds.isEmpty && ns.isEmpty) (directivesAndStatements p ds ns))
  | _ => none

end

end ModuleLowering.Print
