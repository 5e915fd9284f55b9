import ModuleLowering.Lower.Helper

/-!
The top-level statements of a lowered module, before they are written out.
-/

set_option autoImplicit false

namespace ModuleLowering

inductive Imported where
  | whole (binding : String)
  | wrapped (helper binding : String)
  | defaultOf (helper binding : String)
  | property (binding name : String)
  deriving DecidableEq, Repr

namespace Imported

def binding : Imported → String
  | whole b | wrapped _ b | defaultOf _ b | property b _ => b

def helper? : Imported → Option String
  | wrapped h _ | defaultOf h _ => some h
  | _ => none

def toNode : Imported → Node
  | whole b => Made.ident b
  | wrapped h b => Made.call (Made.ident h) [Made.ident b]
  | defaultOf h b => Made.member (Made.call (Made.ident h) [Made.ident b]) "default"
  | property b name => Made.member (Made.ident b) name

end Imported

inductive Item where
  /-- Marks the module as made from `export` declarations. -/
  | moduleFlag (isPlain : Bool)
  /-- Gives exports a value that may be read early. -/
  | predeclaration (names : List String)
  /-- `var binding = require("path");` -/
  | requireBinding (binding path : String) (span : Option Span)
  /-- `require("path");` -/
  | requireCall (path : String) (span : Option Span)
  /-- `var name = value;` -/
  | importVariable (name : String) (value : Imported) (span : Option Span)
  /-- `exports.name = value;` -/
  | exportValue (name : String) (value : Node) (span : Option Span)
  | exportGetter (name : String) (value : Imported)
  /-- Passes on what the module in a variable exports. -/
  | exportStar (binding : String) (span : Option Span)
  /-- `module.exports = value;` -/
  | moduleExports (value : Node) (span : Option Span)
  /-- `module.exports = exports["default"];` -/
  | defaultAlias
  | kept (statement : Node)
  | helperFunction (helper : Helper) (name : String)

open Made in
def Item.toNode : Item → Node
  | .moduleFlag true => expression (exportAssignment "__esModule" (.made (.boolean true) [])) none
  | .moduleFlag false =>
    expression (defineExport (string "__esModule") (object [("value", .made (.boolean true) [])]))
      none
  | .predeclaration names => expression (exportChain names (ident "undefined")) none
  | .requireBinding binding path span => varDeclaration binding (require path) span
  | .requireCall path span => expression (require path) span
  | .importVariable name value span => varDeclaration name value.toNode span
  | .exportValue name value span => expression (exportAssignment name value) span
  | .exportGetter name value => expression (defineExport (string name) (getter value.toNode)) none
  | .exportStar binding span => expression (Made.exportStar binding) span
  | .moduleExports value span => expression (Made.moduleExports value) span
  | .defaultAlias =>
    expression (Made.moduleExports (.made (.index false) [ident "exports", string "default"])) none
  | .kept statement => statement
  | .helperFunction helper name => helper.declare name

end ModuleLowering
