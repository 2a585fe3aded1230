import Capuchin.CommandLine.Options
import Capuchin.Evaluation.Session
import Capuchin.Text.Blank
import Capuchin.Text.Lines

namespace Capuchin

namespace CommandLine

-- What a run of the program leaves behind.
structure Result where
  stdout : String
  stderr : String
  code : Nat
  deriving DecidableEq, Repr

-- What takes the whole process down, and not only the evaluation of a program: a call that the
-- stack has no room for, and an access out of range.
inductive Crash where
  | outOfStack
  | panic
  deriving DecidableEq, Repr

namespace Crash

def message : Crash → String
  | outOfStack =>
    "\nthread 'interpreter' has overflowed its stack\nfatal runtime error: stack overflow, aborting\n"
  | panic => "The interpreter thread panicked.\n"

-- The exit code. A process that is aborted ends with the number of the signal above 128.
def code : Crash → Nat
  | outOfStack => 128 + 6
  | panic => 101

end Crash

-- How evaluation takes the process down, if it does.
def crash? : Outcome → Option Crash
  | .stopped .tooDeep => some .outOfStack
  | .stopped .stuck => some .panic
  | _ => none

-- A process that has printed `stdout` and then crashes, or comes to its end well.
def ended (crash : Option Crash) (stdout : String) : Result :=
  match crash with
  | none => { stdout, stderr := "", code := 0 }
  | some crash => { stdout, stderr := crash.message, code := crash.code }

-- What line mode prints for a line. A crash leaves it no time for an answer.
def answer : Outcome → String
  | .value value | .stopped (.returned value) => value.text ++ "\n"
  | .rejected diagnostics => Diagnostic.report diagnostics ++ "\n"
  | .stopped (.failed error) => "Error: " ++ error.message ++ "\n"
  | .stopped .tooDeep | .stopped .stuck => ""

-- Evaluates a line on the machine and prints the answer. Nothing happens on a blank line.
def evaluateLine (limit : Nat) (machine : Machine) (line : String) : Option Crash × Machine :=
  if Text.isBlankLine line then (none, machine)
  else
    let (outcome, machine) := machine.runWithin limit line
    (crash? outcome, { machine with console := machine.console.write (answer outcome) })

-- Evaluates the lines of the input one after the other, on one machine, up to a crash. A line that
-- a program reads as its input is not evaluated. `bound` limits the number of lines.
def evaluateLines (limit : Nat) : Nat → Machine → Option Crash × Machine
  | 0, machine => (none, machine)
  | bound + 1, machine =>
    match machine.console.readLine? with
    | none => (none, machine)
    | some (line, console) =>
      match evaluateLine limit { machine with console } line with
      | (none, machine) => evaluateLines limit bound machine
      | (some crash, machine) => (some crash, machine)

-- Line mode. Errors do not end it.
def lineMode (limit : Nat) (stdin : String) : Result :=
  let input := Text.lines stdin
  let (crash, machine) := evaluateLines limit input.length (Machine.fresh input)
  ended crash machine.console.output

-- What pipe mode prints: every value but null.
def piped : Value → String
  | .null => ""
  | value => value.text ++ "\n"

-- Runs a script. Errors end it with exit code 1.
def scriptMode (limit : Nat) (options : Options) (script stdin : String) : Result :=
  let (outcome, machine) := (Machine.fresh (Text.lines stdin)).runWithin limit script
  let output := machine.console.output
  match outcome with
  | .value value | .stopped (.returned value) =>
    ended none (output ++ if options.pipeMode then piped value else "")
  | .rejected diagnostics =>
    { stdout := output, stderr := Diagnostic.report diagnostics ++ "\n", code := 1 }
  | .stopped (.failed error) =>
    { stdout := output, stderr := error.message ++ "\n", code := 1 }
  | .stopped .tooDeep | .stopped .stuck => ended (crash? outcome) output

-- The whole program, on a stack with room for `limit` nested calls. `contentsOf` gives the text of
-- a file, or why it cannot be read.
def runWithin (limit : Nat) (contentsOf : String → Except String String) (arguments : List String)
    (stdin : String) : Result :=
  match Options.read arguments with
  | .error error => { stdout := "", stderr := error.message ++ "\n", code := 2 }
  | .ok options =>
    match options.contents with
    | none => lineMode limit stdin
    | some contents =>
      if options.file then
        match contentsOf contents with
        | .ok script => scriptMode limit options script stdin
        | .error reason =>
          { stdout := ""
            stderr := "Failed to read the input file '" ++ contents ++ "': " ++ reason ++ "\n"
            code := 1 }
      else scriptMode limit options contents stdin

def run (contentsOf : String → Except String String) (arguments : List String) (stdin : String) :
    Result :=
  runWithin callLimit contentsOf arguments stdin

end CommandLine

end Capuchin
