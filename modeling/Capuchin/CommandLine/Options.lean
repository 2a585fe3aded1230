namespace Capuchin

namespace CommandLine

-- What the arguments ask for. Without `contents` the program reads its input line by line.
structure Options where
  file : Bool
  pipeMode : Bool
  verbosity : Nat
  contents : Option String
  deriving DecidableEq, Repr

def Options.initial : Options := { file := false, pipeMode := false, verbosity := 0, contents := none }

-- What can be wrong with the arguments.
inductive UsageError where
  | unknownOption (argument : String)
  | extraArgument (argument : String)
  | repeatedOption (option : String)
  deriving DecidableEq, Repr

namespace UsageError

def reason : UsageError → String
  | unknownOption argument =>
    "unexpected argument '" ++ argument ++ "' found\n\n  tip: to pass '" ++ argument ++
      "' as a value, use '-- " ++ argument ++ "'"
  | extraArgument argument => "unexpected argument '" ++ argument ++ "' found"
  | repeatedOption option => "the argument '" ++ option ++ "' cannot be used multiple times"

def message (error : UsageError) : String :=
  "error: " ++ error.reason ++
    "\n\nUsage: monkey [OPTIONS] [CONTENTS]\n\nFor more information, try '--help'."

end UsageError

namespace Options

def setFile (options : Options) : Except UsageError Options :=
  if options.file then .error (.repeatedOption "--file") else .ok { options with file := true }

def setPipeMode (options : Options) : Except UsageError Options :=
  if options.pipeMode then .error (.repeatedOption "--pipe-mode")
  else .ok { options with pipeMode := true }

def moreVerbose (options : Options) : Options :=
  { options with verbosity := options.verbosity + 1 }

def setContents (options : Options) (argument : String) : Except UsageError Options :=
  match options.contents with
  | none => .ok { options with contents := some argument }
  | some _ => .error (.extraArgument argument)

-- The short options behind one dash.
def readShort (options : Options) : List Char → Except UsageError Options
  | [] => .ok options
  | 'f' :: rest => do readShort (← options.setFile) rest
  | 'p' :: rest => do readShort (← options.setPipeMode) rest
  | 'v' :: rest => readShort options.moreVerbose rest
  | c :: _ => .error (.unknownOption (String.ofList ['-', c]))

-- An argument in front of a double dash.
def readArgument (options : Options) (argument : String) : Except UsageError Options :=
  match argument.toList with
  | '-' :: '-' :: _ =>
    if argument = "--file" then options.setFile
    else if argument = "--pipe-mode" then options.setPipeMode
    else if argument = "--verbose" then .ok options.moreVerbose
    else .error (.unknownOption argument)
  | '-' :: c :: rest => options.readShort (c :: rest)
  | _ => options.setContents argument

def readFrom (options : Options) : List String → Except UsageError Options
  | [] => .ok options
  | "--" :: rest => rest.foldlM setContents options
  | argument :: rest => do readFrom (← options.readArgument argument) rest

-- Reads the arguments of the program. Behind a double dash none is an option.
def read (arguments : List String) : Except UsageError Options := Options.initial.readFrom arguments

end Options

end CommandLine

end Capuchin
