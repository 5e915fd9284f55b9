import ModuleLowering.Lower.Export
import ModuleLowering.Lower.Import

/-!
The scan of a module's top-level statements, and the order of what comes out of it.
-/

set_option autoImplicit false

namespace ModuleLowering

/-- Import and export declarations, and the two that make a module of another kind. -/
def Node.isModuleSyntax (n : Node) : Bool :=
  match n.form with
  | .importDecl .. | .exportNamed _ | .exportFrom
    .. | .exportDeclaration | .exportDefault | .exportAll ..
  | .exportAssignment | .exportNamespace _ => true
  | _ => false

def Node.specifierExports (specifiers : List Node) : List (String × Option Span) :=
  specifiers.filterMap fun n => match n with
    | .mk (.exportSpecifier _) _ [_, other] => some (other.nameText, other.span)
    | _ => none

namespace Draft

def scanStatement (hints : Hints) (r : Draft) (n : Node) : Except Error Draft :=
  let priority := hints.priorityOf n.span
  match n with
  | .mk (.importDecl isType _ source) span parts =>
    .ok (r.recordImport isType source span parts.dropLast priority)
  | .mk .exportDefault span [d] =>
    if d.isTypeOnly && (d.isFunctionDeclaration || d.isClassDeclaration || d.form == .interface)
      then
      .ok (r.note .typeDefaultSkipped)
    else do
      if d.isFunctionDeclaration || d.isClassDeclaration then checkExports d.declaredName?.toList
      .ok ((r.exportDefault d span priority).note .defaultExported)
  | .mk .exportDeclaration _ [d] =>
    if d.isTypeOnly then .ok (r.note (.typeExportSkipped none))
    else do
      checkExports d.exportedByDeclaration
      .ok ({ r with hasExports := true }.exportDeclaration d priority)
  | .mk (.exportNamed isType) _ specifiers =>
    if isType then .ok (r.note (.typeExportSkipped none))
    else do
      checkExports (Node.specifierExports specifiers)
      .ok ({ r with hasExports := true }.exportNames specifiers)
  | .mk (.exportFrom isType source) _ parts =>
    if isType then .ok (r.note (.typeExportSkipped none))
    else do
      checkExports (Node.specifierExports parts)
      .ok ({ r with hasExports := true }.reexport source parts.dropLast priority)
  | .mk (.exportAll isType source) span (name :: _) =>
    if isType then .ok (r.note (.typeExportSkipped (some source)))
    else do
      if !name.isAbsent then checkExport name.nameText name.span
      .ok (r.exportAll source name span priority)
  | .mk .exportAssignment span [e] => .ok (r.keep priority (.moduleExports e span))
  | .mk (.exportNamespace _) _ _ => .ok r
  | n => .ok (r.keep priority (.kept n))

def scan (hints : Hints) : Draft → List Node → Except Error Draft
  | r, [] => .ok r
  | r, n :: ns => do
    let r ← r.scanStatement hints n
    scan hints r ns

def header (r : Draft) : List (Priority × Item) :=
  (if r.hasExports then [(Priority.moduleFlag, .moduleFlag r.options.plainFlag)] else []) ++
  (if r.hasImports && !r.predeclared.isEmpty
    then [(Priority.predeclaration, .predeclaration r.predeclared.names)] else [])

def footer (r : Draft) : List (Priority × Item) :=
  if r.options.addExports && r.hasDefault && !r.hasNamed then [(Priority.ordinary, .defaultAlias)]
    else []

/-- All statements in order, with the helpers behind them. -/
def finish (r : Draft) : Except Error (List Node) := do
  let arranged := (arrange (r.header ++ r.top ++ r.body ++ r.footer)).map fun e => e.2.toNode
  return arranged ++ (← r.helpers.mapM fun e => e.1.read (e.1.text e.2))

end Draft

end ModuleLowering
