import Capuchin.Evaluation.Session
import Capuchin.Proofs.Evaluation.Steps
import Mathlib

-- What evaluation is made of. A property of computations that the primitives have, and that is
-- kept where computations are put together, is one of every evaluation.
namespace Capuchin

namespace Eval

inductive Built : {α : Type} → Eval α → Prop
  | pure {α : Type} (value : α) : Built (pure value)
  | throw {α : Type} (signal : Signal) : Built (throw signal : Eval α)
  | bind {α β : Type} {x : Eval α} {next : α → Eval β} (hx : Built x)
      (hn : ∀ value, Built (next value)) : Built (x >>= next)
  | attempt {α : Type} {x : Eval α} (hx : Built x) : Built (attempt x)
  | catchReturn {x : Eval Value} (hx : Built x) : Built (catchReturn x)
  | lookup (frame : Nat) (name : String) : Built (lookup frame name)
  | bindName (frame : Nat) (name : String) (value : Value) : Built (bindName frame name value)
  | newFunction (parameters : List String) (body : Block) : Built (newFunction parameters body)
  | write (text : String) : Built (write text)
  | readLine : Built readLine
  | inFrame {α : Type} (parent : Nat) {body : Nat → Eval α} (hb : ∀ frame, Built (body frame)) :
      Built (inFrame parent body)

namespace Built

theorem fail (error : RuntimeError) : Built (fail error : Eval α) := .throw _

theorem ofExcept (result : Except RuntimeError α) : Built (ofExcept result : Eval α) := by
  cases result with
  | ok value => exact .pure value
  | error error => exact .fail error

theorem condition (value : Value) : Built (condition value : Eval Bool) := by
  cases value with
  | boolean answer => exact .pure answer
  | _ => exact .fail _

theorem element (elements : List Value) (position : Value) :
    Built (element elements position : Eval Value) := by
  cases position with
  | integer position =>
      unfold Capuchin.element
      dsimp only
      cases Integer.index? position elements.length with
      | none => exact .fail _
      | some index =>
          dsimp only
          cases elements[index]? with
          | none => exact .throw _
          | some value => exact .pure value
  | _ => exact .fail _

theorem bindNames (frame : Nat) (names : List String) (values : List Value) :
    Built (bindNames frame names values) := by
  induction names generalizing values with
  | nil => exact .pure ()
  | cons name names ih =>
      cases values with
      | nil => exact .pure ()
      | cons value values => exact (Built.bindName frame name value).bind fun _ => ih values

theorem capture (parameters : List (Option String)) (body : Block) :
    Built (capture parameters body) := by
  unfold Capuchin.capture
  cases parameters.mapM id with
  | none => exact .fail _
  | some names => exact .newFunction names body

end Built

end Eval

open Eval

section Trees

variable {call : Caller} {frame : Nat}

mutual

theorem Expr.eval_built (hcall : ∀ function arguments, Built (call function arguments frame))
    (slot : Slot) (expr : Expr) : Built (expr.eval call frame slot) := by
  cases expr with
  | missing => exact .fail _
  | identifier name => exact .lookup frame name
  | integer value => exact .pure _
  | float value => exact .pure _
  | string literal => exact .pure _
  | boolean value => exact .pure _
  | array elements =>
      rw [Expr.eval]
      refine (evalElements_built hcall elements).bind fun values => ?_
      cases values with
      | some values => exact .pure _
      | none => exact .fail _
  | binary op left right =>
      rw [Expr.eval]
      refine (left.eval_built hcall .leftOperand).bind fun a => ?_
      exact (right.eval_built hcall .rightOperand).bind fun b => .ofExcept _
  | unary op operand =>
      rw [Expr.eval]
      exact (operand.eval_built hcall .operand).bind fun a => .ofExcept _
  | call callee arguments =>
      rw [Expr.eval]
      refine (callee.eval_built hcall .callee).bind fun value => ?_
      cases value with
      | function function =>
          exact (evalArguments_built hcall arguments).bind fun values => hcall function values
      | _ => exact .fail _
  | assignment name value =>
      rw [Expr.eval]
      refine (value.eval_built hcall .assignedValue).bind fun result => ?_
      exact (Built.bindName frame name result).bind fun _ => .pure result
  | index array position =>
      rw [Expr.eval]
      refine (array.eval_built hcall .array).bind fun value => ?_
      cases value with
      | array elements =>
          exact (position.eval_built hcall .index).bind fun value => .element elements value
      | _ => exact .fail _
  | function parameters body => exact .capture parameters body

theorem evalArguments_built (hcall : ∀ function arguments, Built (call function arguments frame))
    (arguments : List Expr) : Built (evalArguments call frame arguments) := by
  cases arguments with
  | nil => exact .pure _
  | cons argument rest =>
      rw [evalArguments]
      refine (argument.eval_built hcall .argument).bind fun value => ?_
      exact (evalArguments_built hcall rest).bind fun values => .pure _

theorem evalElements_built (hcall : ∀ function arguments, Built (call function arguments frame))
    (elements : List Expr) : Built (evalElements call frame elements) := by
  cases elements with
  | nil => exact .pure _
  | cons element rest =>
      have helement := element.eval_built hcall .arrayElement
      have hrest := evalElements_built hcall rest
      cases element with
      | missing => exact .fail _
      | _ =>
          rw [evalElements]
          · exact helement.attempt.bind fun value => hrest.bind fun values => .pure _
          · simp

end

mutual

theorem Stmt.eval_built (hcall : ∀ function arguments, Built (call function arguments frame))
    (stmt : Stmt) : Built (stmt.eval call frame) := by
  cases stmt with
  | bind name value =>
      cases name with
      | none => exact .fail _
      | some name =>
          rw [Stmt.eval]
          refine (value.eval_built hcall .letValue).bind fun result => ?_
          exact (Built.bindName frame name result).bind fun _ => .pure result
  | giveBack value =>
      rw [Stmt.eval]
      exact (value.eval_built hcall .returnValue).bind fun result => .throw _
  | ifThen test consequence =>
      rw [Stmt.eval]
      refine (test.eval_built hcall .condition).bind fun value => ?_
      refine (Built.condition value).bind fun answer => ?_
      cases answer with
      | true => exact evalBlock_built hcall .null consequence
      | false => exact .pure _
  | ifElse test consequence alternative =>
      rw [Stmt.eval]
      refine (test.eval_built hcall .condition).bind fun value => ?_
      refine (Built.condition value).bind fun answer => ?_
      cases answer with
      | true => exact evalBlock_built hcall .null consequence
      | false => exact evalBlock_built hcall .null alternative
  | whileLoop test body => exact .fail _
  | block body => exact evalBlock_built hcall .null body
  | define name parameters body =>
      rw [Stmt.eval]
      refine (Built.capture parameters body).bind fun function => ?_
      exact (Built.bindName frame name function).bind fun _ => .pure function
  | expression value => exact value.eval_built hcall .expression

theorem evalBlock_built (hcall : ∀ function arguments, Built (call function arguments frame))
    (last : Value) (block : Block) : Built (evalBlock call frame last block) := by
  cases block with
  | nil => exact .pure _
  | cons stmt rest =>
      rw [evalBlock]
      exact (stmt.eval_built hcall).bind fun value => evalBlock_built hcall value rest

end

end Trees

namespace Builtin

theorem argument_built (arguments : List Value) (position : Nat) :
    Built (argument arguments position) := by
  unfold argument
  cases arguments[position]? with
  | some value => exact .pure value
  | none => exact .throw _

theorem arrayArgument_built (arguments : List Value) : Built (arrayArgument arguments) := by
  refine (argument_built arguments 0).bind fun value => ?_
  cases value with
  | array elements => exact .pure elements
  | _ => exact .fail _

theorem functionArgument_built (arguments : List Value) : Built (functionArgument arguments) := by
  refine (argument_built arguments 1).bind fun value => ?_
  cases value with
  | function function => exact .pure function
  | _ => exact .fail _

theorem stringArgument_built (arguments : List Value) : Built (stringArgument arguments) := by
  refine (argument_built arguments 0).bind fun value => ?_
  cases value with
  | string text => exact .pure text
  | _ => exact .fail _

theorem converted_built (text : String) (target : Kind) (reading : Option Value) :
    Built (converted text target reading) := by
  cases reading with
  | some value => exact .pure value
  | none => exact .fail _

theorem length_built (value : Value) : Built (length value) := by
  cases value with
  | string text => exact .pure _
  | array elements => exact .pure _
  | _ => exact .fail _

theorem printAll_built (ending : String) (values : List Value) :
    Built (printAll ending values) := by
  induction values with
  | nil => exact .pure ()
  | cons value rest ih => exact (Built.write _).bind fun _ => ih

theorem mapped_built {callback : Value → Eval Value} (hc : ∀ value, Built (callback value))
    (elements : List Value) : Built (mapped callback elements) := by
  induction elements with
  | nil => exact .pure []
  | cons element rest ih => exact (hc element).bind fun result => ih.bind fun results => .pure _

theorem filtered_built {callback : Value → Eval Value} (hc : ∀ value, Built (callback value))
    (elements : List Value) : Built (filtered callback elements) := by
  induction elements with
  | nil => exact .pure []
  | cons element rest ih => exact (hc element).bind fun result => ih.bind fun kept => .pure _

theorem reduced_built {callback : Value → Value → Eval Value}
    (hc : ∀ before value, Built (callback before value)) (before : Value)
    (elements : List Value) : Built (reduced callback before elements) := by
  induction elements generalizing before with
  | nil => exact .pure before
  | cons element rest ih => exact (hc before element).bind fun result => ih result

theorem run_built {call : Caller} {frame : Nat}
    (hcall : ∀ function arguments, Built (call function arguments frame)) (arguments : List Value)
    (builtin : Builtin) : Built (builtin.run call frame arguments) := by
  cases builtin with
  | print => exact (printAll_built "" arguments).bind fun _ => .pure _
  | println => exact (printAll_built "\n" arguments).bind fun _ => .pure _
  | input => exact Built.readLine.bind fun _ => .pure _
  | len => exact (argument_built arguments 0).bind length_built
  | push =>
      refine (arrayArgument_built arguments).bind fun elements => ?_
      exact (argument_built arguments 1).bind fun value => .pure _
  | pop =>
      refine (arrayArgument_built arguments).bind fun elements => ?_
      cases elements with
      | nil => exact .fail _
      | cons element rest => exact .pure _
  | toInt => exact (stringArgument_built arguments).bind fun text => converted_built text _ _
  | toFloat => exact (stringArgument_built arguments).bind fun text => converted_built text _ _
  | map =>
      refine (arrayArgument_built arguments).bind fun elements => ?_
      refine (functionArgument_built arguments).bind fun function => ?_
      exact (mapped_built (fun element => hcall function [element]) elements).bind fun _ => .pure _
  | filter =>
      refine (arrayArgument_built arguments).bind fun elements => ?_
      refine (functionArgument_built arguments).bind fun function => ?_
      exact (filtered_built (fun element => hcall function [element]) elements).bind fun _ =>
        .pure _
  | reduce =>
      refine (arrayArgument_built arguments).bind fun elements => ?_
      refine (functionArgument_built arguments).bind fun function => ?_
      refine (argument_built arguments 2).bind fun start => ?_
      exact reduced_built (fun before element => hcall function [before, element]) start elements

end Builtin

section Calls

variable {call : Caller} {frame : Nat}

theorem Function.invoke_built (hcall : ∀ function arguments, Built (call function arguments frame))
    (arguments : List Value) (function : Function) :
    Built (function.invoke call frame arguments) := by
  cases function with
  | user number parameters body =>
      refine (Built.ofExcept _).bind fun _ => ?_
      refine (Built.bindNames frame parameters arguments).bind fun _ => ?_
      exact (evalBlock_built hcall .null body).catchReturn
  | builtin b => exact (Built.ofExcept _).bind fun _ => b.run_built hcall arguments

theorem callFunction_built (depth : Nat) (function : Function) (arguments : List Value)
    (caller : Nat) : Built (callFunction depth function arguments caller) := by
  induction depth generalizing function arguments caller with
  | zero => exact .throw _
  | succ depth ih =>
      rw [callFunction]
      exact .inFrame caller fun frame =>
        function.invoke_built (fun other values => ih other values frame) arguments

theorem Program.eval_built (depth : Nat) (program : Program) : Built (program.eval depth) :=
  (evalBlock_built (fun function arguments => callFunction_built depth function arguments _) .null
    program).catchReturn

end Calls

end Capuchin
