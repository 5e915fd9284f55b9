/-!
The arguments of the command.
-/

set_option autoImplicit false

namespace ModuleLowering

structure Arguments where
  input : String
  strict : Bool
  loose : Bool
  addExports : Bool
  config : Option String
  quiet : Bool
  verbose : Bool
  /-- Where to write; empty for a name made from the input's. -/
  output : Option String
  deriving DecidableEq, Repr

inductive ArgumentError where
  | missingInput
  | unexpected (argument : String)
  | missingValue (option : String)
  | superfluousValue (value option : String)
  | conflict
  /-- Not an error: the user asks what there is. -/
  | help
  deriving DecidableEq, Repr

def ArgumentError.message : ArgumentError → String
  | missingInput => "error: the following required arguments were not provided:"
  | unexpected argument => "error: unexpected argument '" ++ argument ++ "' found"
  | missingValue option => "error: a value is required for '" ++ option ++ "' but none was supplied"
  | superfluousValue value option =>
    "error: unexpected value '" ++ value ++ "' for '" ++ option ++ "' found; no more were expected"
  | conflict => "[-] Critical Error: Don't set both -q and -v at the same time"
  | help => ""

namespace Arguments

inductive Flag where
  | strict | loose | addExports | quiet | verbose
  deriving DecidableEq, Repr

def Flag.name : Flag → String
  | strict => "--strict"
  | loose => "--loose"
  | addExports => "--add-exports"
  | quiet => "--quiet"
  | verbose => "--verbose"

def Flag.all : List Flag := [strict, loose, addExports, quiet, verbose]

inductive Slot where
  | input | config | output
  deriving DecidableEq, Repr

def Slot.name : Slot → String
  | input => "<INPUT_FILENAME>"
  | config => "--config <CONFIG>"
  | output => "--output [<OUTPUT>]"

/-- What the arguments so far say. The last value is looked at only when the next option or file is
known to be good, so that a bad one is reported first. -/
structure Partial where
  flags : List Flag
  values : List (Slot × String)
  pending : Option (Slot × Option String)
  deriving DecidableEq, Repr

namespace Partial

def empty : Partial := ⟨[], [], none⟩

def value? (p : Partial) (s : Slot) : Option String :=
  (p.values.find? fun (s', _) => s' = s).map Prod.snd

/-- Only the output may be empty. -/
def setValue (p : Partial) (s : Slot) (value : String) : Except ArgumentError Partial :=
  if (p.value? s).isSome then .error .conflict
  else if value = "" && s != .output then .error (.missingValue s.name)
  else .ok { p with values := (s, value) :: p.values, pending := none }

def settle (p : Partial) : Except ArgumentError Partial :=
  match p.pending with
  | none => .ok p
  | some (s, some value) => p.setValue s value
  | some (.output, none) => p.setValue .output ""
  | some (s, none) => .error (.missingValue s.name)

def setFlag (p : Partial) (f : Flag) : Except ArgumentError Partial := do
  let p ← p.settle
  if p.flags.contains f then .error .conflict else .ok { p with flags := f :: p.flags }

def option (p : Partial) (s : Slot) (attached : Option String) : Except ArgumentError Partial := do
  let p ← p.settle
  match attached with
  | some value => p.setValue s value
  | none => .ok { p with pending := some (s, none) }

def help (p : Partial) : Except ArgumentError Partial := do
  let _ ← p.settle
  .error .help

def file (p : Partial) (value : String) : Except ArgumentError Partial :=
  if (p.value? .input).isSome || (p.pending.map Prod.fst) = some .input
    then .error (.unexpected value)
  else do
    let p ← p.settle
    .ok { p with pending := some (.input, some value) }

def plain (p : Partial) (value : String) : Except ArgumentError Partial :=
  match p.pending with
  | some (s, none) => .ok { p with pending := some (s, some value) }
  | _ => p.file value

def long (p : Partial) (name : String) (attached : Option String) : Except ArgumentError Partial :=
  match Flag.all.find? (·.name == name), attached with
  | some f, none => p.setFlag f
  | some f, some value => .error (.superfluousValue value f.name)
  | none, _ =>
    match name, attached with
    | "--config", _ => p.option .config attached
    | "--output", _ => p.option .output attached
    | "--help", none => p.help
    | "--help", some value => .error (.superfluousValue value name)
    | _, _ => .error (.unexpected name)

/-- Options by their letters. What follows `o` is its value. -/
def short (p : Partial) : List Char → Except ArgumentError Partial
  | [] => .ok p
  | 'q' :: cs => do
    let p ← p.setFlag .quiet
    p.short cs
  | 'v' :: cs => do
    let p ← p.setFlag .verbose
    p.short cs
  | 'h' :: _ => p.help
  | 'o' :: [] => p.option .output none
  | 'o' :: '=' :: cs => p.option .output (some (String.ofList cs))
  | 'o' :: cs => p.option .output (some (String.ofList cs))
  | c :: _ => .error (.unexpected (String.ofList ['-', c]))

def splitValue (argument : List Char) : String × Option String :=
  let name := argument.takeWhile (· != '=')
  match argument.drop name.length with
  | [] => (String.ofList name, none)
  | _ :: value => (String.ofList name, some (String.ofList value))

def take (p : Partial) (argument : String) : Except ArgumentError Partial :=
  match argument.toList with
  | '-' :: '-' :: cs =>
    let (name, attached) := splitValue ('-' :: '-' :: cs)
    p.long name attached
  | '-' :: c :: cs => p.short (c :: cs)
  | _ => p.plain argument

/-- All arguments. Behind `--` every one is a file. -/
def takeAll (p : Partial) : List String → Except ArgumentError Partial
  | [] => p.settle
  | "--" :: rest => do
    let p ← rest.foldlM file p
    p.settle
  | argument :: rest => do
    let p ← p.take argument
    p.takeAll rest

end Partial

def parse (arguments : List String) : Except ArgumentError Arguments := do
  let p ← Partial.empty.takeAll arguments
  let has (f : Flag) : Bool := p.flags.contains f
  if has .quiet && has .verbose then .error .conflict
  else match p.value? .input with
    | none => .error .missingInput
    | some input =>
      .ok ⟨input, has .strict, has .loose, has .addExports, p.value? .config, has .quiet,
        has .verbose, p.value? .output⟩

end Arguments

end ModuleLowering
