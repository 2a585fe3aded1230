import Capuchin.Evaluation.Calls

namespace Capuchin

open Eval

-- Makes a function of a definition or a literal. Each parameter needs a name.
def capture (parameters : List (Option String)) (body : Block) : Eval Value :=
  match parameters.mapM id with
  | some names => newFunction names body
  | none => fail (.missing .parameterName)

-- Decides which branch a condition takes.
def condition : Value → EStateM Signal σ Bool
  | .boolean answer => return answer
  | _ => fail .conditionNotBoolean

-- The element of an array at an index.
def element (elements : List Value) : Value → EStateM Signal σ Value
  | .integer position =>
    match Integer.index? position elements.length with
    | none => fail .indexOutOfBounds
    | some index =>
      match elements[index]? with
      | some value => return value
      | none => throw .stuck
  | _ => fail .indexNotInteger

-- Evaluation in a frame, by recursion on the tree. Calls are left to `call`, since the body of
-- a function is no part of the tree that calls it.
mutual

-- The value of the expression in a slot of the tree.
def Expr.eval (call : Caller) (frame : Nat) (slot : Slot) : Expr → Eval Value
  | .missing => fail (.missing slot)
  | .identifier name => lookup frame name
  | .integer value => return .integer value
  | .float value => return .float value
  | .string literal => return .string (stringContent literal)
  | .boolean value => return .boolean value
  | .array elements => do
    match ← evalElements call frame elements with
    | some values => return .array values
    | none => fail .invalidArrayElements
  | .binary op left right => do
    let a ← left.eval call frame .leftOperand
    let b ← right.eval call frame .rightOperand
    ofExcept (op.apply a b)
  | .unary op operand => do
    let a ← operand.eval call frame .operand
    ofExcept (op.apply a)
  | .call callee arguments => do
    match ← callee.eval call frame .callee with
    | .function function =>
      let values ← evalArguments call frame arguments
      call function values frame
    | _ => fail .notAFunction
  | .assignment name value => do
    let result ← value.eval call frame .assignedValue
    bindName frame name result
    return result
  | .index array position => do
    match ← array.eval call frame .array with
    | .array elements => element elements (← position.eval call frame .index)
    | _ => fail .notAnArray
  | .function parameters body => capture parameters body

-- The values of arguments, from left to right.
def evalArguments (call : Caller) (frame : Nat) : List Expr → Eval (List Value)
  | [] => return []
  | argument :: rest => do
    let value ← argument.eval call frame .argument
    return value :: (← evalArguments call frame rest)

-- The values of the elements of an array literal, or `none` if one of them has none. The
-- elements behind that one are evaluated all the same. A hole ends the evaluation.
def evalElements (call : Caller) (frame : Nat) : List Expr → Eval (Option (List Value))
  | [] => return some []
  | .missing :: _ => fail (.missing .arrayElement)
  | element :: rest => do
    let value ← attempt (element.eval call frame .arrayElement)
    let values ← evalElements call frame rest
    return value.bind fun first => values.map (first :: ·)

def Stmt.eval (call : Caller) (frame : Nat) : Stmt → Eval Value
  | .bind none _ => fail (.missing .letName)
  | .bind (some name) value => do
    let result ← value.eval call frame .letValue
    bindName frame name result
    return result
  | .giveBack value => do
    throw (.returned (← value.eval call frame .returnValue))
  | .ifThen test consequence => do
    if ← condition (← test.eval call frame .condition) then
      evalBlock call frame .null consequence
    else
      return .null
  | .ifElse test consequence alternative => do
    if ← condition (← test.eval call frame .condition) then
      evalBlock call frame .null consequence
    else
      evalBlock call frame .null alternative
  | .whileLoop _ _ => fail .whileUnsupported
  | .block body => evalBlock call frame .null body
  | .define name parameters body => do
    let function ← capture parameters body
    bindName frame name function
    return function
  | .expression value => value.eval call frame .expression

-- The value of the last statement, or `last` if there is none.
def evalBlock (call : Caller) (frame : Nat) (last : Value) : List Stmt → Eval Value
  | [] => return last
  | stmt :: rest => do
    let value ← stmt.eval call frame
    evalBlock call frame value rest

end

-- Runs a function in a frame made for it.
def Function.invoke (call : Caller) (frame : Nat) (arguments : List Value) :
    Function → Eval Value
  | .user _ parameters body => do
    ofExcept ((Arity.exactly parameters.length).check arguments.length)
    bindNames frame parameters arguments
    catchReturn (evalBlock call frame .null body)
  | .builtin b => do
    ofExcept (b.arity.check arguments.length)
    b.run call frame arguments

-- Calls a function from a frame. Within the call, further ones may be nested `depth` deep
-- counting this one. The frame of the call asks the calling one for names it does not bind.
def callFunction : Nat → Caller
  | 0 => fun _ _ _ => throw .tooDeep
  | depth + 1 => fun function arguments caller =>
    inFrame caller fun frame => function.invoke (callFunction depth) frame arguments

-- Evaluates a program in the root frame. A `return` outside of functions comes out as a signal.
def Program.visit (depth : Nat) (program : Program) : Eval Value :=
  evalBlock (callFunction depth) Environment.root .null program

-- The value of a program, which a `return` outside of functions ends.
def Program.eval (depth : Nat) (program : Program) : Eval Value :=
  catchReturn (program.visit depth)

end Capuchin
