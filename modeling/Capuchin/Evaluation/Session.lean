import Capuchin.Evaluation.Tree
import Capuchin.Syntax.Parser

namespace Capuchin

-- How deeply calls may be nested in a session, where no other limit is given. It stands for the
-- stack of the interpreter.
def callLimit : Nat := 20000

-- What comes of a source text: a value, a rejection with the parser's objections, or a signal.
inductive Outcome where
  | value (value : Value)
  | rejected (diagnostics : List Diagnostic)
  | stopped (signal : Signal)

namespace Signal

-- How a signal is displayed. The last two take the process down and are not.
def message : Signal → String
  | returned value => "return " ++ value.text
  | failed error => error.message
  | tooDeep | stuck => ""

end Signal

namespace Machine

-- A machine without builtins, with the lines that can be read from it.
def bare (input : List String) : Machine where
  environment := .empty
  console := { input, output := "" }
  created := 0

-- A machine with the builtins in its root frame.
def fresh (input : List String) : Machine :=
  let machine := bare input
  { machine with environment := machine.environment.install Environment.root }

def perform (machine : Machine) (action : Eval Value) : Outcome × Machine :=
  match action.run machine with
  | .ok value machine => (.value value, machine)
  | .error signal machine => (.stopped signal, machine)

-- Reads a source text and evaluates it, with room for `limit` nested calls. With objections nothing
-- is evaluated.
def runWithin (limit : Nat) (machine : Machine) (source : String) : Outcome × Machine :=
  let result := parse source
  if result.diagnostics.isEmpty then machine.perform (result.program.eval limit)
  else (.rejected result.diagnostics, machine)

def run (machine : Machine) (source : String) : Outcome × Machine :=
  machine.runWithin callLimit source

-- Calls a function from the root frame.
def call (machine : Machine) (function : Function) (arguments : List Value) :
    Outcome × Machine :=
  machine.perform (callFunction callLimit function arguments Environment.root)

-- The value of a name in the root frame.
def valueOf (machine : Machine) (name : String) : Outcome × Machine :=
  machine.perform (Eval.lookup Environment.root name)

end Machine

-- The outcome of a source text on a machine of its own, without input.
def run (source : String) : Outcome := ((Machine.fresh []).run source).1

end Capuchin
