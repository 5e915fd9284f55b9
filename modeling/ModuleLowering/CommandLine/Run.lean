import ModuleLowering.CommandLine.Arguments
import ModuleLowering.CommandLine.Files
import ModuleLowering.Options.Decode
import ModuleLowering.Transform

/-!
What the command does with its arguments and the files it finds.
-/

set_option autoImplicit false

namespace ModuleLowering

structure CommandResult where
  exit : Nat
  stdout : String
  stderr : List String
  deriving DecidableEq, Repr

def readOptions {m : Type → Type} [Monad m] [FileAccess m] (path : String) :
    m (Except Error Options) := do
  match ← FileAccess.readText path with
  | .error e => return .error (.unreadable path e.message)
  | .ok text => return Options.ofText text

namespace Command

def logValue : LogValue → String
  | .text s => "\"" ++ s ++ "\""
  | .count n => toString n
  | .flag b => if b then "true" else "false"

def logLine (e : LogEntry) : String :=
  "DEBUG " ++ e.message ++ String.join (e.fields.map fun (k, v) => " " ++ k ++ "=" ++ logValue v)

/-- Drops slashes and steps to the same directory from the end of a path, given backwards. -/
def trimBackwards : List Char → List Char
  | '/' :: rest => trimBackwards rest
  | '.' :: '/' :: rest => trimBackwards rest
  | cs => cs

def sibling (path name : String) : String :=
  let above := (trimBackwards path.toList.reverse).dropWhile (· != '/')
  match trimBackwards above with
  | [] => if above.isEmpty then name else "/" ++ name
  | cs => String.ofList cs.reverse ++ "/" ++ name

def outputPath (input output : String) : String :=
  if output != "" then output
  else sibling input (((fileName? input).map fileStem).getD "output" ++ ".cjs")

/-- A flag can only switch an option on. -/
def addFlags (a : Arguments) (o : Options) : Options :=
  ⟨o.strict || a.strict, o.loose || a.loose, o.addExports || a.addExports⟩

/-- Whatever its name, the input is a module. -/
def inputDialect (a : Arguments) : Except Error Dialect :=
  (Dialect.ofPath a.input).map fun d => { d with isModule := true }

def failure (stderr : List String) (message : String) : CommandResult :=
  ⟨1, "", stderr ++ ["[-] Critical Error: " ++ message]⟩

def status (a : Arguments) (lines : List String) : List String := if a.quiet then [] else lines

def opening (a : Arguments) (o : Options) : List String :=
  status a (("[!] Rewriting " ++ a.input ++ "...") :: if o.strict
    then ["[!] Strict mode enabled"] else [])

def logLines (a : Arguments) (l : Lowered) : List String :=
  if a.verbose then (l.outcome.entries.filter (·.level == .debug)).map logLine else []

/-- Everything up to the output: the code, and the lines to print before it. -/
def lowerText (a : Arguments) (o : Options) (text : String) :
    Except CommandResult (String × List String) :=
  match inputDialect a with
  | .error e => .error (failure [] e.message)
  | .ok dialect =>
    match transform o dialect text with
    | .error e => .error (failure (opening a o) e.message)
    | .ok l =>
      .ok (l.code, opening a o ++ logLines a l ++
        status a (if l.isModified then [] else ["[!] No module syntax found"]))

section

variable {m : Type → Type} [Monad m] [FileAccess m]

def deliver (a : Arguments) (code : String) (stderr : List String) : m CommandResult :=
  match a.output with
  | none => return ⟨0, code, stderr⟩
  | some output => do
    let path := outputPath a.input output
    match ← FileAccess.writeText path code with
    | .error e => return failure stderr ("Failed to write " ++ path ++ ": " ++ e.message)
    | .ok () => return ⟨0, "", stderr ++ status a ["[+] Saved " ++ path]⟩

def runWith (a : Arguments) : m CommandResult := do
  let given ← match a.config with
    | some path => readOptions path
    | none => pure (.ok Options.default)
  match given with
  | .error e => return failure [] e.message
  | .ok o =>
    match ← FileAccess.readText a.input with
    | .error e => return failure [] (Error.unreadable a.input e.message).message
    | .ok text =>
      match lowerText a (addFlags a o) text with
      | .error result => return result
      | .ok (code, stderr) => deliver a code stderr

def run (arguments : List String) : m CommandResult :=
  match Arguments.parse arguments with
  | .error .help => return ⟨0, "", []⟩
  | .error e => return ⟨2, "", [e.message]⟩
  | .ok a => runWith a

end

end Command

end ModuleLowering
