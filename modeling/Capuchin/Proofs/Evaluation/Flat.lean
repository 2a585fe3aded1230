import Capuchin.Evaluation.Tree

-- Evaluation without frames. All names an activation can see stand in one map, and a call works
-- on a copy of the map of its caller.
namespace Capuchin.Flat

open Eval

structure State where
  names : String → Option Value
  console : Console
  created : Nat

abbrev Run (α : Type) : Type := EStateM Signal State α

abbrev Caller : Type := Function → List Value → Run Value

def lookup (name : String) : Run Value := do
  match (← get).names name with
  | some value => return value
  | none => fail (.unknownIdentifier name)

def assign (name : String) (value : Value) : Run Unit :=
  modify fun state =>
    { state with names := fun other => if other = name then some value else state.names other }

-- Of several values for one name the last one counts.
def assignAll : List String → List Value → Run Unit
  | name :: names, value :: values => do
    assign name value
    assignAll names values
  | _, _ => return ()

-- What `body` does to the map is lost when it ends, in whatever way it ends.
def onCopy (body : Run α) : Run α := do
  let caller ← get
  try body
  finally modify fun state => { state with names := caller.names }

def write (text : String) : Run Unit :=
  modify fun state => { state with console := state.console.write text }

def readLine : Run String := do
  let state ← get
  match state.console.readLine? with
  | some (line, console) =>
    set { state with console }
    return line
  | none => fail .inputExhausted

def capture (parameters : List (Option String)) (body : Block) : Run Value := do
  match parameters.mapM id with
  | some names =>
    let state ← get
    set { state with created := state.created + 1 }
    return .function (.user state.created names body)
  | none => fail (.missing .parameterName)

mutual

def evalExpr (call : Caller) (slot : Slot) : Expr → Run Value
  | .missing => fail (.missing slot)
  | .identifier name => lookup name
  | .integer value => return .integer value
  | .float value => return .float value
  | .string literal => return .string (stringContent literal)
  | .boolean value => return .boolean value
  | .array elements => do
    match ← evalElements call elements with
    | some values => return .array values
    | none => fail .invalidArrayElements
  | .binary op left right => do
    let a ← evalExpr call .leftOperand left
    let b ← evalExpr call .rightOperand right
    ofExcept (op.apply a b)
  | .unary op operand => do
    let a ← evalExpr call .operand operand
    ofExcept (op.apply a)
  | .call callee arguments => do
    match ← evalExpr call .callee callee with
    | .function function => call function (← evalArguments call arguments)
    | _ => fail .notAFunction
  | .assignment name value => do
    let result ← evalExpr call .assignedValue value
    assign name result
    return result
  | .index array position => do
    match ← evalExpr call .array array with
    | .array elements => element elements (← evalExpr call .index position)
    | _ => fail .notAnArray
  | .function parameters body => capture parameters body

def evalArguments (call : Caller) : List Expr → Run (List Value)
  | [] => return []
  | argument :: rest => do
    let value ← evalExpr call .argument argument
    return value :: (← evalArguments call rest)

-- `none` if an element has no value. A hole among the elements ends the evaluation at once.
def evalElements (call : Caller) : List Expr → Run (Option (List Value))
  | [] => return some []
  | .missing :: _ => fail (.missing .arrayElement)
  | element :: rest => do
    let value ← attempt (evalExpr call .arrayElement element)
    let values ← evalElements call rest
    return value.bind fun first => values.map (first :: ·)

end

mutual

def evalStmt (call : Caller) : Stmt → Run Value
  | .bind none _ => fail (.missing .letName)
  | .bind (some name) value => do
    let result ← evalExpr call .letValue value
    assign name result
    return result
  | .giveBack value => do
    throw (.returned (← evalExpr call .returnValue value))
  | .ifThen test consequence => do
    if ← condition (← evalExpr call .condition test) then
      evalBlock call .null consequence
    else
      return .null
  | .ifElse test consequence alternative => do
    if ← condition (← evalExpr call .condition test) then
      evalBlock call .null consequence
    else
      evalBlock call .null alternative
  | .whileLoop _ _ => fail .whileUnsupported
  | .block body => evalBlock call .null body
  | .define name parameters body => do
    let function ← capture parameters body
    assign name function
    return function
  | .expression value => evalExpr call .expression value

def evalBlock (call : Caller) (last : Value) : Block → Run Value
  | [] => return last
  | stmt :: rest => do
    let value ← evalStmt call stmt
    evalBlock call value rest

end

-- The elements whose result is true and nothing else.
def kept (elements results : List Value) : List Value :=
  (elements.zip results).filterMap fun (element, result) =>
    match result with
    | .boolean true => some element
    | _ => none

-- What a builtin gives for arguments of which there are as many as it wants.
def builtin (call : Caller) : Builtin → List Value → Run Value
  | .print, values => do
    write (String.join (values.map Value.text))
    return .null
  | .println, values => do
    write (String.join (values.map (·.text ++ "\n")))
    return .null
  | .input, [] => return .string (← readLine)
  | .len, [.string text] => return .integer (Integer.ofLength text.toList.length)
  | .len, [.array elements] => return .integer (Integer.ofLength elements.length)
  | .len, [_] => fail (.invalidArgument .stringOrArray)
  | .push, [.array elements, value] => return .array (elements ++ [value])
  | .push, [_, _] => fail (.invalidArgument .firstArray)
  | .pop, [.array []] => fail .arrayIsEmpty
  | .pop, [.array elements] => return .array elements.dropLast
  | .pop, [_] => fail (.invalidArgument .firstArray)
  | .toInt, [.string text] =>
    match Integer.read? text with
    | some number => return .integer number
    | none => fail (.conversionFailed text .integer)
  | .toInt, [_] => fail (.invalidArgument .string)
  | .toFloat, [.string text] =>
    match FloatText.read? text with
    | some number => return .float number
    | none => fail (.conversionFailed text .float)
  | .toFloat, [_] => fail (.invalidArgument .string)
  | .map, [.array elements, .function function] =>
    return .array (← elements.mapM fun element => call function [element])
  | .map, [.array _, _] => fail (.invalidArgument .secondFunction)
  | .map, [_, _] => fail (.invalidArgument .firstArray)
  | .filter, [.array elements, .function function] =>
    return .array (kept elements (← elements.mapM fun element => call function [element]))
  | .filter, [.array _, _] => fail (.invalidArgument .secondFunction)
  | .filter, [_, _] => fail (.invalidArgument .firstArray)
  | .reduce, [.array elements, .function function, start] =>
    elements.foldlM (fun before element => call function [before, element]) start
  | .reduce, [.array _, _, _] => fail (.invalidArgument .secondFunction)
  | .reduce, [_, _, _] => fail (.invalidArgument .firstArray)
  | _, _ => throw .stuck

def invoke (call : Caller) (arguments : List Value) : Function → Run Value
  | .user _ parameters body => do
    ofExcept ((Arity.exactly parameters.length).check arguments.length)
    assignAll parameters arguments
    catchReturn (evalBlock call .null body)
  | .builtin b => do
    ofExcept (b.arity.check arguments.length)
    builtin call b arguments

-- Calls a function. Within the call, further ones may be nested `depth` deep counting this one.
def callFunction : Nat → Caller
  | 0 => fun _ _ => throw .tooDeep
  | depth + 1 => fun function arguments => onCopy (invoke (callFunction depth) arguments function)

end Capuchin.Flat
