import ModuleLowering.Lower.Draft

/-!
Import declarations. They are collected while the module is scanned, and turned into variables
afterwards, path by path.
-/

set_option autoImplicit false

namespace ModuleLowering

def Node.specifier? : Node → Option Specifier
  | .mk .importDefault _ [b] => some (.default b.nameText)
  | .mk .importNamespace _ [b] => some (.namespace b.nameText)
  | .mk (.importNamed false) _ [imported, b] => some (.named b.nameText imported.nameText)
  | _ => none

namespace Draft

/-- Records an import declaration. One that only imports types is dropped. -/
def recordImport (r : Draft) (isType : Bool) (source : String) (span : Option Span)
    (specifiers : List Node) (priority : Priority) : Draft :=
  let values := specifiers.filterMap Node.specifier?
  if isType || (!specifiers.isEmpty && values.isEmpty) then r.note (.typeImportSkipped source)
  else
    let r := r.note (.imported source values.length)
    { r with hasImports := true, imports := r.imports.record source span priority values }

/-- A namespace import: the module itself in strict mode, else a variable. -/
def bindNamespace (r : Draft) (binding : String) (group : ImportGroup) : Specifier → Draft
  | .namespace name =>
    if r.options.strict then { r with redirects := r.redirects.insert name (.binding binding) }
    else
      let (h, r) := r.helper .interopWildcard
      r.hoist group.priority (.importVariable name (.wrapped h binding) group.span)
  | _ => r

def bindImported (r : Draft) (binding : String) (group : ImportGroup) (name imported : String) :
    Draft :=
  if imported = "default" then
    let (h, r) := r.helper .interopDefault
    r.hoist group.priority (.importVariable name (.defaultOf h binding) group.span)
  else
    -- Reads go to the module's property, so that they see later changes.
    let r := { r with redirects := r.redirects.insert name (.member binding imported) }
    r.hoist group.priority (.importVariable name (.property binding imported) group.span)

def bindName (r : Draft) (binding : String) (group : ImportGroup) : Specifier → Draft
  | .namespace _ => r
  | .default name => r.bindImported binding group name "default"
  | .named name imported => r.bindImported binding group name imported

def lowerGroup (r : Draft) (source : String) (group : ImportGroup) : Draft :=
  if group.specifiers.isEmpty then r.hoist Priority.ordinary (.requireCall source group.span)
  else
    let (binding, r) := r.require source group.priority group.span
    let r := group.specifiers.foldl (fun r s => r.bindNamespace binding group s) r
    let r := group.specifiers.foldl (fun r s => r.bindName binding group s) r
    r.note (.importLowered source binding group.specifiers.length)

/-- Turns the recorded imports into variables, in the order the paths were first imported. -/
def lowerImports (r : Draft) : Draft :=
  r.imports.entries.foldl (fun r (source, group) => r.lowerGroup source group)
    { r with imports := .empty }

end Draft

end ModuleLowering
