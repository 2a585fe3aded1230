import Capuchin.Scope.Environment

namespace Capuchin

-- The lines that can still be read, and all that has been written.
structure Console where
  input : List String
  output : String
  deriving DecidableEq, Repr, Inhabited

namespace Console

def write (console : Console) (text : String) : Console :=
  { console with output := console.output ++ text }

def readLine? (console : Console) : Option (String × Console) :=
  match console.input with
  | [] => none
  | line :: rest => some (line, { console with input := rest })

end Console

-- All that evaluation reads and changes. `created` counts the functions made so far; it is the
-- number of the next one.
structure Machine where
  environment : Environment
  console : Console
  created : Nat
  deriving Inhabited

-- Why evaluation stops before its end. A `return` is on its way to the call it leaves. The
-- last two belong to no program: a call nested deeper than allowed, and a frame or an argument
-- that is not there.
inductive Signal where
  | returned (value : Value)
  | failed (error : RuntimeError)
  | tooDeep
  | stuck
  deriving Inhabited

-- A computation on the machine. What it did before a signal stays done.
abbrev Eval (α : Type) : Type := EStateM Signal Machine α

namespace Eval

def fail (error : RuntimeError) : EStateM Signal σ α := throw (.failed error)

def ofExcept : Except RuntimeError α → EStateM Signal σ α
  | .ok value => return value
  | .error error => fail error

-- The value of a name as seen from a frame.
def lookup (frame : Nat) (name : String) : Eval Value := do
  match (← get).environment.get frame name with
  | .bound value => return value
  | .unbound => fail (.unknownIdentifier name)
  | .broken => throw .stuck

def bindName (frame : Nat) (name : String) (value : Value) : Eval Unit := do
  let machine ← get
  if frame < machine.environment.depth then
    set { machine with environment := machine.environment.set frame name value }
  else
    throw .stuck

-- Binds names to values in order, so that the last one counts for a name that occurs twice.
def bindNames (frame : Nat) : List String → List Value → Eval Unit
  | name :: names, value :: values => do
    bindName frame name value
    bindNames frame names values
  | _, _ => return ()

def write (text : String) : Eval Unit :=
  modify fun machine => { machine with console := machine.console.write text }

def readLine : Eval String := do
  let machine ← get
  match machine.console.readLine? with
  | some (line, console) =>
    set { machine with console }
    return line
  | none => fail .inputExhausted

-- A new function with a number of its own.
def newFunction (parameters : List String) (body : Block) : Eval Value := do
  let machine ← get
  set { machine with created := machine.created + 1 }
  return .function (.user machine.created parameters body)

-- Releases a frame, which has to be the last live one.
def release (frame : Nat) : Eval Unit := do
  let machine ← get
  if frame + 1 = machine.environment.depth then
    set { machine with environment := machine.environment.pop frame }
  else
    throw .stuck

-- Runs a body in a new frame under `parent` and releases the frame, however the body ends.
def inFrame (parent : Nat) (body : Nat → Eval α) : Eval α := do
  let machine ← get
  if parent < machine.environment.depth then
    let (environment, frame) := machine.environment.push parent
    set { machine with environment }
    try body frame
    finally release frame
  else
    throw .stuck

-- Turns a `return` into the value it returns.
def catchReturn (body : EStateM Signal σ Value) : EStateM Signal σ Value :=
  tryCatch body fun
    | .returned value => return value
    | signal => throw signal

-- The value of a computation, or `none` if the program fails in it or returns from it.
def attempt (body : EStateM Signal σ α) : EStateM Signal σ (Option α) :=
  tryCatch (some <$> body) fun
    | .returned _ | .failed _ => return none
    | signal => throw signal

end Eval

end Capuchin
