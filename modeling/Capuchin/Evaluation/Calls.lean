import Capuchin.Evaluation.Machine
import Capuchin.Value.Operation

namespace Capuchin

-- How a function is called: with its arguments, from a frame.
abbrev Caller : Type := Function → List Value → Nat → Eval Value

namespace Builtin

open Eval

def argument (arguments : List Value) (position : Nat) : Eval Value :=
  match arguments[position]? with
  | some value => return value
  | none => throw .stuck

def arrayArgument (arguments : List Value) : Eval (List Value) := do
  match ← argument arguments 0 with
  | .array elements => return elements
  | _ => fail (.invalidArgument .firstArray)

def functionArgument (arguments : List Value) : Eval Function := do
  match ← argument arguments 1 with
  | .function function => return function
  | _ => fail (.invalidArgument .secondFunction)

def stringArgument (arguments : List Value) : Eval String := do
  match ← argument arguments 0 with
  | .string text => return text
  | _ => fail (.invalidArgument .string)

-- Writes the texts of values, each with `ending` behind it.
def printAll (ending : String) : List Value → Eval Unit
  | [] => return ()
  | value :: rest => do
    write (value.text ++ ending)
    printAll ending rest

-- What a text denotes, as a value of the kind `target`.
def converted (text : String) (target : Kind) (reading : Option Value) : Eval Value :=
  match reading with
  | some value => return value
  | none => fail (.conversionFailed text target)

def length : Value → Eval Value
  | .string text => return .integer (Integer.ofLength text.toList.length)
  | .array elements => return .integer (Integer.ofLength elements.length)
  | _ => fail (.invalidArgument .stringOrArray)

def isTrue : Value → Bool
  | .boolean b => b
  | _ => false

-- The results of a call for each element.
def mapped (call : Value → Eval Value) : List Value → Eval (List Value)
  | [] => return []
  | element :: rest => do
    let result ← call element
    return result :: (← mapped call rest)

-- The elements for which a call gives true and nothing else.
def filtered (call : Value → Eval Value) : List Value → Eval (List Value)
  | [] => return []
  | element :: rest => do
    let result ← call element
    let kept ← filtered call rest
    return if isTrue result then element :: kept else kept

-- The result of calls from the left, each with the result before it and an element.
def reduced (call : Value → Value → Eval Value) (before : Value) : List Value → Eval Value
  | [] => return before
  | element :: rest => do
    reduced call (← call before element) rest

-- Runs a builtin in a frame of its own, from which it calls back.
def run (call : Caller) (frame : Nat) (arguments : List Value) : Builtin → Eval Value
  | print => do
    printAll "" arguments
    return .null
  | println => do
    printAll "\n" arguments
    return .null
  | input => do
    return .string (← readLine)
  | len => do
    length (← argument arguments 0)
  | push => do
    let elements ← arrayArgument arguments
    return .array (elements ++ [← argument arguments 1])
  | pop => do
    match ← arrayArgument arguments with
    | [] => fail .arrayIsEmpty
    | elements => return .array elements.dropLast
  | toInt => do
    let text ← stringArgument arguments
    converted text .integer ((Integer.read? text).map .integer)
  | toFloat => do
    let text ← stringArgument arguments
    converted text .float ((FloatText.read? text).map .float)
  | map => do
    let elements ← arrayArgument arguments
    let function ← functionArgument arguments
    return .array (← mapped (fun element => call function [element] frame) elements)
  | filter => do
    let elements ← arrayArgument arguments
    let function ← functionArgument arguments
    return .array (← filtered (fun element => call function [element] frame) elements)
  | reduce => do
    let elements ← arrayArgument arguments
    let function ← functionArgument arguments
    let start ← argument arguments 2
    reduced (fun before element => call function [before, element] frame) start elements

end Builtin

end Capuchin
