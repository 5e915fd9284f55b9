import ModuleLowering.Grammar.Program
import ModuleLowering.Lower.Module
import ModuleLowering.Print.Program
import ModuleLowering.SourceType

/-!
From the text of a module to the text of its lowering.
-/

set_option autoImplicit false

namespace ModuleLowering

inductive LogValue where
  | text (s : String)
  | count (n : Nat)
  | flag (b : Bool)
  deriving DecidableEq, Repr

inductive LogLevel where
  | trace | debug
  deriving DecidableEq, Repr

structure LogEntry where
  level : LogLevel
  message : String
  fields : List (String × LogValue)
  deriving DecidableEq, Repr

def Event.entry : Event → LogEntry
  | .typeImportSkipped source => ⟨.trace, "skipped type-only import", [("source", .text source)]⟩
  | .imported source n => ⟨.trace, "import", [("source", .text source), ("specifiers", .count n)]⟩
  | .required source binding =>
    ⟨.trace, "require", [("source", .text source), ("binding", .text binding)]⟩
  | .importLowered source binding n =>
    ⟨.trace, "rewrote import", [("source", .text source), ("binding", .text binding),
      ("specifiers", .count n)]⟩
  | .typeDefaultSkipped => ⟨.trace, "skipped type-only default export", []⟩
  | .defaultExported => ⟨.trace, "export default", []⟩
  | .typeExportSkipped none => ⟨.trace, "skipped type-only export", []⟩
  | .typeExportSkipped (some source) =>
    ⟨.trace, "skipped type-only export", [("source", .text source)]⟩
  | .namespaceExported source external =>
    ⟨.trace, "export namespace", [("source", .text source), ("exported", .text external)]⟩
  | .allExported source => ⟨.trace, "export all", [("source", .text source)]⟩
  | .reexported source name external =>
    ⟨.trace, "re-export", [("source", .text source), ("local", .text name),
      ("exported", .text external)]⟩
  | .exported name external =>
    ⟨.trace, "export", [("local", .text name), ("exported", .text external)]⟩

def Report.entry (r : Report) : LogEntry :=
  ⟨.debug, "rewrote module syntax",
    [("renamed", .count r.renamed), ("requires", .count r.requires),
     ("exported_locals", .count r.exportedLocals), ("remapped_locals", .count r.redirectedLocals),
     ("live_rewrites", .count r.liveChanges), ("module_flag", .flag r.hasModuleFlag)]⟩

def Outcome.entries (o : Outcome) : List LogEntry :=
  o.log.map Event.entry ++ (o.report.map Report.entry).toList ++
    [⟨.debug, "transform finished",
    [("transform", .text "commonjs"), ("modified", .flag o.report.isSome)]⟩]

structure Lowered where
  code : String
  outcome : Outcome

def Lowered.isModified (l : Lowered) : Bool := l.outcome.report.isSome

inductive Hint where
  | statement (index : Nat) (priority : Priority)
  | place (span : Span) (priority : Priority)
  deriving DecidableEq, Repr

/-- Enters hints in order; those for statements that do not exist are left out. -/
def Hints.ofList (statements : List Node) (hints : List Hint) : Hints :=
  hints.foldl (fun h hint => match hint with
    | .statement i p =>
      match (statements[i]?).bind Node.span with
      | some s => h.insert s p
      | .none => h
    | .place s p => h.insert s p) Hints.none

/-- Reads a module and looks its names up, without regard to names that are declared twice. -/
def Source.analyse (dialect : Dialect) (text : String) : Except Error (Source × Module) :=
  match Source.parse dialect text with
  | none => .error .parseFailed
  | some source => .ok (source, Module.analyse dialect.isModule source.program)

def transformWith (options : Options) (dialect : Dialect) (hints : List Hint) (text : String) :
    Except Error Lowered := do
  let (source, m) ← Source.analyse dialect text
  match m.scopes.clash with
  | some name => .error (.redeclared name)
  | none =>
    match (Module.lower options (Hints.ofList m.statements hints)).run m with
    | .ok outcome lowered => .ok ⟨lowered.program.print source.comments dialect.hasTags, outcome⟩
    | .error e _ => .error e

def transform (options : Options) (dialect : Dialect) (text : String) : Except Error Lowered :=
  transformWith options dialect [] text

def TakenNames.generateAll (t : TakenNames) : List String → List String
  | [] => []
  | hint :: hints =>
    let (name, t) := t.generate hint
    name :: t.generateAll hints

end ModuleLowering
