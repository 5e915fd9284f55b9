import ModuleLowering.Lower.Draft

/-!
Export declarations. A variable's exports are assigned where it gets its value; what is passed on
from another module is read from there each time.
-/

set_option autoImplicit false

namespace ModuleLowering

/-- Fails on the name that is kept for the module flag. -/
def checkExport (name : String) (span : Option Span) : Except Error Unit :=
  if name = "__esModule" then .error (.illegalExport name (span.getD ⟨0, 0⟩)) else .ok ()

def checkExports : List (String × Option Span) → Except Error Unit
  | [] => .ok ()
  | (name, span) :: rest => do
    checkExport name span
    checkExports rest

namespace Node

def isTypeOnly : Node → Bool
  | .mk (.function t) _ ps => t.isDeclared || (ps.getLastD Node.absent).isAbsent
  | .mk (.globalDecl _) _ _ => true
  | .mk .interface _ _ => true
  | .mk (.typeAlias _) _ _ => true
  | .mk (.varDecl _ isDeclared) _ _ => isDeclared
  | .mk (.classDef t) _ _ => t.isDeclared
  | .mk (.enumDecl _ isDeclared) _ _ => isDeclared
  | .mk (.namespaceDecl _ isDeclared) _ _ => isDeclared
  | _ => false

def declaredName? : Node → Option (String × Option Span)
  | .mk (.function _) _ (b :: _) | .mk (.classDef _) _ (b :: _) | .mk (.enumDecl ..) _ (b :: _)
  | .mk (.namespaceDecl ..) _ (b :: _) | .mk .importEquals _ (b :: _) | .mk .interface _ (b :: _)
  | .mk (.typeAlias _) _ (b :: _) => b.boundNames.head?
  | _ => none

def exportedByDeclaration : Node → List (String × Option Span)
  | .mk (.varDecl ..) _ ds => ds.flatMap fun d => (d.parts.head?.map boundNames).getD []
  | d => d.declaredName?.toList

def asExpression : Node → Node
  | .mk (.function t) s ps => .mk (.function { t with role := .expression }) s ps
  | .mk (.classDef t) s ps => .mk (.classDef { t with isExpression := true }) s ps
  | n => n

def isFunctionDeclaration (n : Node) : Bool :=
  match n.form with
  | .function t => t.role == .declaration
  | _ => false

def isClassDeclaration (n : Node) : Bool :=
  match n.form with
  | .classDef t => !t.isExpression
  | _ => false

end Node

namespace Draft

def exportDefault (r : Draft) (d : Node) (span : Option Span) (priority : Priority) : Draft :=
  let r := { r with hasExports := true, hasDefault := true }
  if d.isFunctionDeclaration then
    match d.declaredName? with
    | some (name, _) =>
      -- Functions exist before anything runs, so the assignment can go first.
      let r := { r with exports := r.exports.add name "default" }
      (r.hoist Priority.ordinary (.exportValue "default" (Made.ident name) none)).keep
        priority (.kept d)
    | none => r.hoist Priority.ordinary (.exportValue "default" d.asExpression none)
  else if d.isClassDeclaration then
    match d.declaredName? with
    | some (name, _) =>
      let r := { r with exports := r.exports.add name "default" }
      (r.keep priority (.kept d)).keep Priority.ordinary
        (.exportValue "default" (Made.ident name) none)
    | none => r.keep priority (.exportValue "default" d.asExpression span)
  else r.keep priority (.exportValue "default" d span)

/-- A declarator whose variable is exported: a plain name is exported by its initializer. -/
def exportDeclarator (d : Node) : Node :=
  match d with
  | .mk (.declarator isDefinite) s [p, t, value] =>
    let value := if value.isAbsent then Made.ident "undefined" else value
    match p.form with
    | .binder name _ => .mk (.declarator isDefinite) s [p, t, Made.exportAssignment name value]
    | _ => .mk (.declarator isDefinite) s [p, t, value]
  | d => d

def noteDeclarator (r : Draft) (d : Node) : Draft :=
  let r := { r with hasNamed := true }
  match d.parts.head?.map Node.form with
  | some (.binder name _) =>
    { r with exports := r.exports.add name name, predeclared := r.predeclared.insert name }
  | _ => r

/-- The names of a declarator that takes a value apart; they are only known once it has run. -/
def patternNames (d : Node) : List String :=
  match d.parts.head? with
  | some p => if p.form matches .binder .. then [] else p.boundNames.map Prod.fst
  | none => []

def exportDeclaration (r : Draft) (d : Node) (priority : Priority) : Draft :=
  match d with
  | .mk (.function _) _ _ =>
    let r := match d.declaredName? with
      | some (name, _) =>
        let r := r.noteExportName name
        { r with exports := r.exports.add name name }.hoist Priority.ordinary
          (.exportValue name (Made.ident name) none)
      | none => r
    r.keep priority (.kept d)
  | .mk (.varDecl kind isDeclared) s ds =>
    let r := ds.foldl noteDeclarator r
    let r := r.keep priority (.kept (.mk (.varDecl kind isDeclared) s (ds.map exportDeclarator)))
    (ds.flatMap patternNames).foldl (fun r name => r.exportBehind name name (Made.ident name)) r
  | _ =>
    let r := r.keep priority (.kept d)
    match d.declaredName? with
    | some (name, _) => (r.noteExportName name).exportBehind name name (Made.ident name)
    | none => r

def reexportName (r : Draft) (source binding : String) (n : Node) : Draft :=
  match n with
  | .mk (.exportSpecifier false) _ [name, other] =>
    let exported := other.nameText
    let r := r.noteExportName exported
    let (value, r) :=
      if name.nameText = "default" then
        let (h, r) := r.helper .interopDefault
        (Imported.defaultOf h binding, r)
      else (Imported.property binding name.nameText, r)
    let r := r.hoist Priority.ordinary (.exportGetter exported value)
    { r with predeclared := r.predeclared.insert exported }.note
      (.reexported source name.nameText exported)
  | _ => r

def reexport (r : Draft) (source : String) (specifiers : List Node) (priority : Priority) : Draft :=
  let (binding, r) := r.require source priority (r.imports.spanOf source)
  specifiers.foldl (fun r n => r.reexportName source binding n) r

/-- One name of `export { … }`. The read keeps what the name was looked up as. -/
def exportName (r : Draft) (n : Node) : Draft :=
  match n with
  | .mk (.exportSpecifier false) _ [name, other] =>
    let exported := other.nameText
    let value := match name with
      | .mk (.mention local_ ref _) s _ => Node.mk (.ident local_ ref) s []
      | _ => Made.ident name.nameText
    let r := r.noteExportName exported
    (r.exportBehind name.nameText exported value).note (.exported name.nameText exported)
  | _ => r

def exportNames (r : Draft) (specifiers : List Node) : Draft := specifiers.foldl exportName r

def exportAll (r : Draft) (source : String) (name : Node) (span : Option Span)
    (priority : Priority) : Draft :=
  let r := { r with hasExports := true }
  let (binding, r) := r.require source priority (r.imports.spanOf source)
  if name.isAbsent then
    ({ r with hasNamed := true }.hoist Priority.ordinary (.exportStar binding span)).note
      (.allExported source)
  else
    let exported := name.nameText
    let r := r.noteExportName exported
    let (value, r) :=
      if r.options.strict then (Imported.whole binding, r)
      else
        let (h, r) := r.helper .interopWildcard
        (Imported.wrapped h binding, r)
    let r := r.hoist Priority.ordinary (.exportGetter exported value)
    { r with predeclared := r.predeclared.insert exported }.note
      (.namespaceExported source exported)

end Draft

end ModuleLowering
