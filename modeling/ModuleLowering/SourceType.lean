import ModuleLowering.Error
import ModuleLowering.Grammar.Cursor
import ModuleLowering.Text.ModulePath

/-!
Which dialect a text is written in, told by a short name or by the name of its file.
-/

set_option autoImplicit false

namespace ModuleLowering

namespace Dialect

def plain : Dialect := ⟨false, false, true, false⟩

def ofExtension? : String → Option Dialect
  | "js" | "mjs" => some plain
  | "cjs" => some { plain with isModule := false }
  | "jsx" => some { plain with hasTags := true }
  | "ts" | "mts" => some { plain with hasTypes := true }
  | "cts" => some { plain with hasTypes := true, isModule := false }
  | "tsx" => some { plain with hasTypes := true, hasTags := true }
  | _ => none

def ofName? : String → Option Dialect
  | "mjs" | "unambiguous" => some plain
  | "cjs" | "script" => some { plain with isModule := false }
  | "jsx" => some { plain with hasTags := true }
  | "ts" => some { plain with hasTypes := true }
  | "tsx" => some { plain with hasTypes := true, hasTags := true }
  | "dts" => some { plain with hasTypes := true, isDefinition := true }
  | _ => none

end Dialect

/-- The steps of a path; empty ones and those to the same directory do not count. -/
def pathSteps (path : String) : List String :=
  ((path.splitOn "/").filter fun s => s != "" && s != ".")

/-- The last step of a path, unless that leads upwards. -/
def fileName? (path : String) : Option String :=
  (pathSteps path).getLast?.filter (· != "..")

/-- What follows the last dot of a file name, unless the name starts with it. -/
def extension? (name : String) : Option String :=
  match beforeLast? '.' name.toList with
  | some (_ :: _) => some (String.ofList (afterLast '.' name.toList))
  | _ => none

def fileStem (name : String) : String :=
  match beforeLast? '.' name.toList with
  | some (c :: cs) => String.ofList (c :: cs)
  | _ => name

/-- Files of declarations only: `a.d.ts`, and `a.d.css.ts`. -/
def isDefinitionName (name : String) : Bool :=
  let steps := name.splitOn "."
  match steps.reverse with
  | "ts" :: rest => rest.dropLast.contains "d"
  | "mts" :: "d" :: _ :: _ | "cts" :: "d" :: _ :: _ => true
  | _ => false

def Dialect.ofPath (path : String) : Except Error Dialect :=
  match fileName? path with
  | none => .error (.unknownSourceType path "Please provide a valid file name.")
  | some name =>
    match (extension? name).bind ofExtension? with
    | some d => .ok { d with isDefinition := isDefinitionName name }
    | none => .error (.unknownSourceType path
        ("Please provide a valid file extension: .js, .mjs, .jsx or .cjs for JavaScript, " ++
         "or .ts, .d.ts, .mts, .cts or .tsx for TypeScript"))

end ModuleLowering
