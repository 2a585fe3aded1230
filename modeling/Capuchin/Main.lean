import Capuchin.CommandLine.Modes

open Capuchin

-- Why a file could not be read, in the words of the operating system.
def fileObjection : IO.Error → String
  | .noFileOrDirectory _ _ _ => "No such file or directory (os error 2)"
  | .permissionDenied _ _ _ => "Permission denied (os error 13)"
  | error => toString error

-- The file that the arguments name, if they name one.
def namedFile (arguments : List String) : Option String :=
  match CommandLine.Options.read arguments with
  | .ok options => if options.file then options.contents else none
  | .error _ => none

def readNamed (path : String) : IO (Except String String) := do
  try return .ok (← IO.FS.readFile path)
  catch error => return .error (fileObjection error)

def main (arguments : List String) : IO UInt32 := do
  let file ← (namedFile arguments).mapM readNamed
  let stdin ← (← IO.getStdin).readToEnd
  let result := CommandLine.run (fun _ => file.getD (.ok "")) arguments stdin
  IO.print result.stdout
  IO.eprint result.stderr
  return result.code.toUInt32
