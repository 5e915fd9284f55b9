import ModuleLowering.SourceType

/-!
The files a command works on: a directory tree, with the usual rules for finding and writing them.
-/

set_option autoImplicit false

namespace ModuleLowering

inductive FileError where
  | notFound | notDirectory | isDirectory | notText
  | other (reason : String)
  deriving DecidableEq, Repr

def FileError.message : FileError → String
  | notFound => "No such file or directory (os error 2)"
  | notDirectory => "Not a directory (os error 20)"
  | isDirectory => "Is a directory (os error 21)"
  | notText => "stream did not contain valid UTF-8"
  | other reason => reason

class FileAccess (m : Type → Type) where
  readText : String → m (Except FileError String)
  writeText : String → String → m (Except FileError Unit)

/-- What keeps a device from taking a text: it refuses the file, or it stops in the middle. -/
inductive WriteFault where
  | refused (reason : FileError)
  | cutShort (kept : Nat) (reason : FileError)
  deriving DecidableEq, Repr

/-- Files and directories by the way to them from the root, and what reading and writing them fails
with. A directory exists where it is listed, and above everything that exists. -/
structure FileTree where
  workingDirectory : List String
  directories : List (List String)
  files : List (List String × ByteArray)
  readFault : List String → Option FileError
  writeFault : List String → Option WriteFault

namespace FileTree

/-- Files below a working directory, on a device without faults. -/
def holding (workingDirectory : List String) (files : List (List String × ByteArray)) :
    FileTree where
  workingDirectory := workingDirectory
  directories := []
  files := files.map fun (place, bytes) => (workingDirectory ++ place, bytes)
  readFault _ := none
  writeFault _ := none

def contents? (t : FileTree) (place : List String) : Option ByteArray :=
  (t.files.find? fun (p, _) => p == place).map Prod.snd

def isDirectory (t : FileTree) (place : List String) : Bool :=
  (t.workingDirectory :: t.directories).any place.isPrefixOf ||
    t.files.any fun (p, _) => place.isPrefixOf p && p != place

def follow (t : FileTree) (place : List String) : List String → Except FileError (List String)
  | [] => .ok place
  | step :: rest =>
    if step = "" || step = "." then t.follow place rest
    else if step = ".." then t.follow place.dropLast rest
    else
      let next := place ++ [step]
      if rest.isEmpty || t.isDirectory next then t.follow next rest
      else if (t.contents? next).isSome then .error .notDirectory
      else .error .notFound

/-- The place that a path leads to. The way starts at the root, or else at the working directory;
the root is its own parent. -/
def locate (t : FileTree) (path : String) : Except FileError (List String) :=
  if path = "" then .error .notFound
  else t.follow (if path.startsWith "/" then [] else t.workingDirectory) (path.splitOn "/")

def readText (t : FileTree) (path : String) : Except FileError String := do
  let place ← t.locate path
  if t.isDirectory place then .error .isDirectory
  else match t.contents? place, t.readFault place with
    | none, _ => .error .notFound
    | some _, some e => .error e
    | some bytes, none =>
      match String.fromUTF8? bytes with
      | some text => .ok text
      | none => .error .notText

def putEntry (place : List String) (bytes : ByteArray) :
    List (List String × ByteArray) → List (List String × ByteArray)
  | [] => [(place, bytes)]
  | (p, b) :: rest => if p = place then (p, bytes) :: rest else (p, b) :: putEntry place bytes rest

def withoutSlashes (path : String) : String :=
  String.ofList (path.toList.reverse.dropWhile (· == '/')).reverse

def put (t : FileTree) (place : List String) (bytes : ByteArray) : FileTree :=
  { t with files := putEntry place bytes t.files }

/-- The place of a file that is to be written, in a directory that exists. A path that ends in a
slash can only be a directory. -/
def locateOutput (t : FileTree) (path : String) : Except FileError (List String) := do
  let place ← t.locate (if pathSteps path = [] then path else withoutSlashes path)
  if t.isDirectory place || path.endsWith "/" then .error .isDirectory else .ok place

/-- Writes a text to a file. The file is created or emptied first, and a device that stops in the
middle leaves what it has taken. -/
def writeText (t : FileTree) (path text : String) : Except FileError Unit × FileTree :=
  match t.locateOutput path with
  | .error e => (.error e, t)
  | .ok place =>
    match t.writeFault place with
    | none => (.ok (), t.put place text.toUTF8)
    | some (.refused e) => (.error e, t)
    | some (.cutShort kept e) => (.error e, t.put place (text.toUTF8.extract 0 kept))

/-- The files below the working directory that are new or changed, by the way to them from there. -/
def changes (before after : FileTree) : List (List String × ByteArray) :=
  after.files.filterMap fun (place, bytes) =>
    if before.workingDirectory.isPrefixOf place &&
        (before.contents? place).map ByteArray.toList != some bytes.toList then
      some (place.drop before.workingDirectory.length, bytes)
    else none

instance : FileAccess (StateM FileTree) where
  readText path := do return (← get).readText path
  writeText path text := modifyGet fun t => t.writeText path text

end FileTree

end ModuleLowering
