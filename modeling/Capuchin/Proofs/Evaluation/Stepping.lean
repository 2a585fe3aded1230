import Capuchin.Proofs.Evaluation.Steps
import Capuchin.Evaluation.Tree
import Mathlib.Logic.Relation

-- Evaluation one step at a time. What is left to do stands on a list of its own, so that a step
-- neither recurs nor counts: a run goes on for as long as the program does.
namespace Capuchin.Stepping

open Eval Builtin

-- What a step can take up. A function is invoked in a frame that is there for it.
inductive Work where
  | expr (slot : Slot) (expr : Expr) (frame : Nat)
  | stmt (stmt : Stmt) (frame : Nat)
  | block (last : Value) (block : Block) (frame : Nat)
  | program (program : Program)
  | invoke (function : Function) (arguments : List Value) (frame : Nat)

-- Where a run stands: before a piece of work or a call, or behind one that has ended.
inductive Control where
  | work (work : Work)
  | call (function : Function) (arguments : List Value) (caller : Nat)
  | value (value : Value)
  | signal (signal : Signal)

-- What waits for a value and is dropped by a signal.
inductive Rest where
  | leftOf (op : BinaryOp) (right : Expr) (frame : Nat)
  | rightOf (op : BinaryOp) (left : Value)
  | operand (op : UnaryOp)
  | callee (arguments : List Expr) (frame : Nat)
  | argument (function : Function) (before : List Value) (rest : List Expr) (frame : Nat)
  | bind (name : String) (frame : Nat)
  | array (position : Expr) (frame : Nat)
  | position (elements : List Value)
  | giveBack
  | branch (consequence : Block) (alternative : Option Block) (frame : Nat)
  | statements (rest : Block) (frame : Nat)
  | mapped (function : Function) (results rest : List Value) (frame : Nat)
  | filtered (function : Function) (kept : List Value) (element : Value) (rest : List Value)
      (frame : Nat)
  | reduced (function : Function) (rest : List Value) (frame : Nat)

-- An element of an array literal may end in a signal, the body of a function in a `return`,
-- and the frame of a call is released in any case.
inductive Task where
  | use (rest : Rest)
  | element (before : Option (List Value)) (rest : List Expr) (frame : Nat)
  | body
  | release (frame : Nat)

-- What a run goes on with, and what is to be done behind it before all that waits already.
abbrev Next := Control × List Task

-- How many calls have been made and not yet released.
def calls : List Task → Nat
  | [] => 0
  | .release _ :: rest => calls rest + 1
  | .use _ :: rest => calls rest
  | .element _ _ _ :: rest => calls rest
  | .body :: rest => calls rest

def answer (x : Eval Value) : Eval Next := do
  return (.value (← x), [])

-- The arguments that are left, and then the call.
def arguments (function : Function) (before : List Value) (frame : Nat) : List Expr → Eval Next
  | [] => return (.call function before frame, [])
  | argument :: rest =>
    return (.work (.expr .argument argument frame), [.use (.argument function before rest frame)])

-- The elements that are left, and then the array, if all have a value.
def elements (before : Option (List Value)) (frame : Nat) : List Expr → Eval Next
  | [] =>
    match before with
    | some values => return (.value (.array values), [])
    | none => fail .invalidArrayElements
  | .missing :: _ => fail (.missing .arrayElement)
  | element :: rest =>
    return (.work (.expr .arrayElement element frame), [.element before rest frame])

def mapped (function : Function) (results : List Value) (frame : Nat) : List Value → Eval Next
  | [] => return (.value (.array results), [])
  | element :: rest =>
    return (.call function [element] frame, [.use (.mapped function results rest frame)])

def filtered (function : Function) (kept : List Value) (frame : Nat) : List Value → Eval Next
  | [] => return (.value (.array kept), [])
  | element :: rest =>
    return (.call function [element] frame, [.use (.filtered function kept element rest frame)])

def reduced (function : Function) (before : Value) (frame : Nat) : List Value → Eval Next
  | [] => return (.value before, [])
  | element :: rest =>
    return (.call function [before, element] frame, [.use (.reduced function rest frame)])

def beginExpr (slot : Slot) (frame : Nat) : Expr → Eval Next
  | .array literals => elements (some []) frame literals
  | .binary op left right =>
    return (.work (.expr .leftOperand left frame), [.use (.leftOf op right frame)])
  | .unary op operand => return (.work (.expr .operand operand frame), [.use (.operand op)])
  | .call callee arguments =>
    return (.work (.expr .callee callee frame), [.use (.callee arguments frame)])
  | .assignment name value =>
    return (.work (.expr .assignedValue value frame), [.use (.bind name frame)])
  | .index array position =>
    return (.work (.expr .array array frame), [.use (.array position frame)])
  | .missing => fail (.missing slot)
  | .identifier name => answer (lookup frame name)
  | .integer value => return (.value (.integer value), [])
  | .float value => return (.value (.float value), [])
  | .string literal => return (.value (.string (stringContent literal)), [])
  | .boolean value => return (.value (.boolean value), [])
  | .function parameters body => answer (capture parameters body)

def beginStmt (frame : Nat) : Stmt → Eval Next
  | .bind none _ => fail (.missing .letName)
  | .bind (some name) value =>
    return (.work (.expr .letValue value frame), [.use (.bind name frame)])
  | .giveBack value => return (.work (.expr .returnValue value frame), [.use .giveBack])
  | .ifThen test consequence =>
    return (.work (.expr .condition test frame), [.use (.branch consequence none frame)])
  | .ifElse test consequence alternative =>
    return (.work (.expr .condition test frame),
      [.use (.branch consequence (some alternative) frame)])
  | .whileLoop _ _ => fail .whileUnsupported
  | .block body => return (.work (.block .null body frame), [])
  | .define name parameters body => answer do
    let function ← capture parameters body
    bindName frame name function
    return function
  | .expression value => return (.work (.expr .expression value frame), [])

def beginBlock (last : Value) (frame : Nat) : Block → Eval Next
  | [] => return (.value last, [])
  | stmt :: rest => return (.work (.stmt stmt frame), [.use (.statements rest frame)])

-- No step makes a call by itself.
def noCall : Caller := fun _ _ _ => throw .stuck

-- The builtins that call back take their elements one at a time. The others call nothing.
def beginBuiltin (frame : Nat) (arguments : List Value) : Builtin → Eval Next
  | .map => do
    let elements ← arrayArgument arguments
    let function ← functionArgument arguments
    mapped function [] frame elements
  | .filter => do
    let elements ← arrayArgument arguments
    let function ← functionArgument arguments
    filtered function [] frame elements
  | .reduce => do
    let elements ← arrayArgument arguments
    let function ← functionArgument arguments
    let start ← argument arguments 2
    reduced function start frame elements
  | builtin => answer (builtin.run noCall frame arguments)

def beginFunction (frame : Nat) (arguments : List Value) : Function → Eval Next
  | .user _ parameters body => do
    ofExcept ((Arity.exactly parameters.length).check arguments.length)
    bindNames frame parameters arguments
    return (.work (.block .null body frame), [.body])
  | .builtin builtin => do
    ofExcept (builtin.arity.check arguments.length)
    beginBuiltin frame arguments builtin

def Work.begin : Work → Eval Next
  | expr slot tree frame => beginExpr slot frame tree
  | stmt tree frame => beginStmt frame tree
  | block last statements frame => beginBlock last frame statements
  | program statements => return (.work (.block .null statements Environment.root), [.body])
  | invoke function arguments frame => beginFunction frame arguments function

-- A call makes its frame, in which the function is then invoked.
def enter (function : Function) (arguments : List Value) (caller : Nat) : Eval Next := do
  let machine ← get
  let frame := machine.environment.depth
  if caller < frame then
    set (entered caller machine)
    return (.work (.invoke function arguments frame), [.release frame])
  else
    throw .stuck

def Rest.resume (value : Value) : Rest → Eval Next
  | leftOf op right frame =>
    return (.work (.expr .rightOperand right frame), [.use (.rightOf op value)])
  | rightOf op left => answer (ofExcept (op.apply left value))
  | operand op => answer (ofExcept (op.apply value))
  | callee rest frame =>
    match value with
    | .function function => arguments function [] frame rest
    | _ => fail .notAFunction
  | argument function before rest frame => arguments function (before ++ [value]) frame rest
  | bind name frame => answer do
    bindName frame name value
    return value
  | array index frame =>
    match value with
    | .array elements => return (.work (.expr .index index frame), [.use (.position elements)])
    | _ => fail .notAnArray
  | position elements => answer (element elements value)
  | giveBack => throw (.returned value)
  | branch consequence alternative frame => do
    if ← condition value then
      return (.work (.block .null consequence frame), [])
    else
      match alternative with
      | some block => return (.work (.block .null block frame), [])
      | none => return (.value .null, [])
  | statements rest frame => beginBlock value frame rest
  | mapped function results rest frame => Stepping.mapped function (results ++ [value]) frame rest
  | filtered function kept element rest frame =>
    Stepping.filtered function (if isTrue value then kept ++ [element] else kept) frame rest
  | reduced function rest frame => Stepping.reduced function value frame rest

namespace Task

def resume (value : Value) : Task → Eval Next
  | use rest => rest.resume value
  | element before rest frame => elements (before.map (· ++ [value])) frame rest
  | body => return (.value value, [])
  | release frame => do
    Eval.release frame
    return (.value value, [])

def unwind (signal : Signal) : Task → Eval Next
  | use _ => throw signal
  | element _ rest frame =>
    match signal with
    | .returned _ | .failed _ => elements none frame rest
    | signal => throw signal
  | body =>
    match signal with
    | .returned value => return (.value value, [])
    | signal => throw signal
  | release frame => do
    Eval.release frame
    throw signal

end Task

structure Config where
  control : Control
  pending : List Task
  machine : Machine

def proceed (next : Eval Next) (pending : List Task) (machine : Machine) : Config :=
  match next machine with
  | .ok (control, tasks) after => ⟨control, tasks ++ pending, after⟩
  | .error signal after => ⟨.signal signal, pending, after⟩

-- A run is over with a value or a signal for which nothing waits.
def Config.step : Config → Option Config
  | ⟨.work work, pending, machine⟩ => some (proceed work.begin pending machine)
  | ⟨.call function arguments caller, pending, machine⟩ =>
    some (proceed (enter function arguments caller) pending machine)
  | ⟨.value value, task :: pending, machine⟩ =>
    some (proceed (task.resume value) pending machine)
  | ⟨.signal signal, task :: pending, machine⟩ =>
    some (proceed (task.unwind signal) pending machine)
  | ⟨_, [], _⟩ => none

-- Before a call that would be one more than `limit` calls inside each other.
def Config.Excessive (limit : Nat) (config : Config) : Prop :=
  ∃ function arguments caller, config.control = .call function arguments caller ∧
    limit ≤ calls config.pending

-- A run that makes no call that is nested too deep.
abbrev Leads (limit : Nat) : Config → Config → Prop :=
  Relation.ReflTransGen fun config next => ¬config.Excessive limit ∧ config.step = some next

end Capuchin.Stepping
