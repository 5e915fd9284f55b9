import ModuleLowering.CommandLine.Run

/-!
The command, on the files of the system.
-/

set_option autoImplicit false

namespace ModuleLowering

def fileError (e : IO.Error) : FileError :=
  match e with
  | .noFileOrDirectory .. => .notFound
  | .inappropriateType _ 20 _ => .notDirectory
  | .inappropriateType _ 21 _ => .isDirectory
  | e => .other (toString e)

instance : FileAccess IO where
  readText path := do
    try
      match String.fromUTF8? (← IO.FS.readBinFile path) with
      | some text => return .ok text
      | none => return .error .notText
    catch e => return .error (fileError e)
  writeText path text := do
    try
      IO.FS.writeFile path text
      return .ok ()
    catch e => return .error (fileError e)

end ModuleLowering

def main (arguments : List String) : IO UInt32 := do
  let result ← ModuleLowering.Command.run (m := IO) arguments
  for line in result.stderr do
    IO.eprintln line
  IO.print result.stdout
  return result.exit.toUInt32
