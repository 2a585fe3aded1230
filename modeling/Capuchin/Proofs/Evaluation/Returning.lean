import Capuchin.Proofs.Evaluation.Traversal
import Mathlib

-- Where a `return` can come from. Calls and expressions never end in one, so that it belongs to
-- the list of statements it stands in.
namespace Capuchin

open Eval

-- Any signal but a `return`.
def notReturned (signal : Signal) : Prop := ∀ value, signal ≠ .returned value

theorem release_notReturned (frame : Nat) :
    Maintains anyMachine anything notReturned (release frame) := by
  intro machine _
  by_cases hlast : frame + 1 = machine.environment.depth
  · rw [release_run hlast]
    exact ⟨trivial, trivial⟩
  · rw [release_run_of_not_last hlast]
    exact ⟨trivial, nofun⟩

-- If calls do not return, nothing that evaluation rests on does.
theorem primitives_notReturned {call : Caller} {frame : Nat}
    (hcall : ∀ function arguments,
      Maintains anyMachine anything notReturned (call function arguments frame)) :
    Primitives anyMachine notReturned call frame :=
  primitives_of_signals nofun nofun hcall

theorem callFunction_notReturned (depth : Nat) (function : Function) (arguments : List Value)
    (caller : Nat) :
    Maintains anyMachine anything notReturned
      (callFunction depth function arguments caller) := by
  induction depth generalizing function arguments caller with
  | zero => exact .throw nofun
  | succ depth ih =>
      rw [callFunction]
      refine .inFrame nofun caller (fun _ _ => trivial) release_notReturned fun frame => ?_
      apply Function.invoke_maintains
      exact primitives_notReturned fun function arguments => ih function arguments frame

-- A run of a list of statements comes to a `return` of the list itself: past statements that have
-- a value, into blocks and into the branches of conditions. Calls are no way to one. What is
-- found is the expression in the `return` and the machine on which it is evaluated.
inductive Reaches (call : Caller) (frame : Nat) : Block → Machine → Expr → Machine → Prop
  | here {value rest machine} : Reaches call frame (.giveBack value :: rest) machine value machine
  | past {stmt : Stmt} {rest machine value after found last}
      (hstmt : stmt.eval call frame machine = .ok value after)
      (hrest : Reaches call frame rest after found last) :
      Reaches call frame (stmt :: rest) machine found last
  | block {body rest machine found last} (hbody : Reaches call frame body machine found last) :
      Reaches call frame (.block body :: rest) machine found last
  | ifThen {test : Expr} {consequence rest machine after found last}
      (htest : test.eval call frame .condition machine = .ok (.boolean true) after)
      (hbranch : Reaches call frame consequence after found last) :
      Reaches call frame (.ifThen test consequence :: rest) machine found last
  | ifElse {test : Expr} {consequence alternative rest machine answer after found last}
      (htest : test.eval call frame .condition machine = .ok (.boolean answer) after)
      (hbranch : Reaches call frame (if answer then consequence else alternative) after found
        last) :
      Reaches call frame (.ifElse test consequence alternative :: rest) machine found last

section

variable {call : Caller} {frame : Nat} {machine after : Machine} {value : Value}

theorem Reaches.of_singleton {stmt : Stmt} {found : Expr} {last : Machine}
    (h : Reaches call frame [stmt] machine found last) (rest : Block) :
    Reaches call frame (stmt :: rest) machine found last := by
  cases h with
  | here => exact .here
  | past _ hrest => cases hrest
  | block hbody => exact .block hbody
  | ifThen htest hbranch => exact .ifThen htest hbranch
  | ifElse htest hbranch => exact .ifElse htest hbranch

-- What a run from a machine returns is the value of the expression in a `return` that the list
-- comes to.
def ReturnsFrom (call : Caller) (frame : Nat) (block : Block) (machine : Machine) (value : Value)
    (after : Machine) : Prop :=
  ∃ found last, Reaches call frame block machine found last ∧
    found.eval call frame .returnValue last = .ok value after

theorem Eval.Maintains.ne_returned {V : α → Prop} {x : Eval α}
    (hx : Maintains anyMachine V notReturned x) :
    x machine ≠ .error (.returned value) after := by
  intro hr
  have hend := hx machine trivial
  rw [hr] at hend
  exact hend.2 value rfl

theorem bound_notReturned (h : Primitives anyMachine notReturned call frame) (name : String)
    {x : Eval Value} (hx : Maintains anyMachine anything notReturned x) :
    Maintains anyMachine anything notReturned (do
      let result ← x
      bindName frame name result
      return result) :=
  hx.bind fun result _ => (h.bindName name result).bind fun _ _ => .pure trivial

-- A condition that has been evaluated is no way to a `return`, but a branch behind it may be.
theorem branch_returned {test : Expr} {branch : Bool → Eval Value}
    (h : Primitives anyMachine notReturned call frame)
    (hr : (do
        let answer ← condition (← test.eval call frame .condition)
        branch answer : Eval Value) machine = .error (.returned value) after) :
    ∃ answer between, test.eval call frame .condition machine = .ok (.boolean answer) between ∧
      branch answer between = .error (.returned value) after := by
  rw [bind_eq_error] at hr
  obtain htest | ⟨result, between, htest, hbranch⟩ := hr
  · exact absurd htest (test.eval_maintains h .condition).ne_returned
  · cases result with
    | boolean answer => exact ⟨answer, between, htest, hbranch⟩
    | _ => cases hbranch

mutual

theorem Stmt.eval_returned (h : Primitives anyMachine notReturned call frame) (stmt : Stmt)
    {machine after : Machine} {value : Value}
    (hr : stmt.eval call frame machine = .error (.returned value) after) :
    ReturnsFrom call frame [stmt] machine value after := by
  cases stmt with
  | bind name value =>
      cases name with
      | none => cases hr
      | some name =>
          have hbound := bound_notReturned h name (value.eval_maintains h .letValue)
          exact absurd hr hbound.ne_returned
  | giveBack found =>
      rw [Stmt.eval, bind_eq_error] at hr
      obtain hfound | ⟨result, last, hfound, hthrow⟩ := hr
      · exact absurd hfound (found.eval_maintains h .returnValue).ne_returned
      · cases hthrow
        exact ⟨found, machine, .here, hfound⟩
  | ifThen test consequence =>
      rw [Stmt.eval] at hr
      obtain ⟨answer, between, htest, hbranch⟩ := branch_returned h hr
      cases answer with
      | true =>
          obtain ⟨found, last, hreach, hvalue⟩ := evalBlock_returned h .null consequence hbranch
          exact ⟨found, last, .ifThen htest hreach, hvalue⟩
      | false => cases hbranch
  | ifElse test consequence alternative =>
      rw [Stmt.eval] at hr
      obtain ⟨answer, between, htest, hbranch⟩ := branch_returned h hr
      cases answer with
      | true =>
          obtain ⟨found, last, hreach, hvalue⟩ := evalBlock_returned h .null consequence hbranch
          exact ⟨found, last, .ifElse htest hreach, hvalue⟩
      | false =>
          obtain ⟨found, last, hreach, hvalue⟩ := evalBlock_returned h .null alternative hbranch
          exact ⟨found, last, .ifElse htest hreach, hvalue⟩
  | whileLoop test body => cases hr
  | block body =>
      rw [Stmt.eval] at hr
      obtain ⟨found, last, hreach, hvalue⟩ := evalBlock_returned h .null body hr
      exact ⟨found, last, .block hreach, hvalue⟩
  | define name parameters body =>
      have hfunction := (Expr.function parameters body).eval_maintains h .expression
      exact absurd hr (bound_notReturned h name hfunction).ne_returned
  | expression expr => exact absurd hr (expr.eval_maintains h .expression).ne_returned

theorem evalBlock_returned (h : Primitives anyMachine notReturned call frame) (last : Value)
    (block : Block) {machine after : Machine} {value : Value}
    (hr : evalBlock call frame last block machine = .error (.returned value) after) :
    ReturnsFrom call frame block machine value after := by
  cases block with
  | nil => cases hr
  | cons stmt rest =>
      rw [evalBlock, bind_eq_error] at hr
      obtain hstmt | ⟨first, between, hstmt, hrest⟩ := hr
      · obtain ⟨found, last, hreach, hvalue⟩ := stmt.eval_returned h hstmt
        exact ⟨found, last, hreach.of_singleton rest, hvalue⟩
      · obtain ⟨found, last, hreach, hvalue⟩ := evalBlock_returned h first rest hrest
        exact ⟨found, last, .past hstmt hreach, hvalue⟩

end

-- A `return` that a list comes to ends the run of the list.
theorem Reaches.evalBlock {block : Block} {found : Expr} {last : Machine}
    (h : Reaches call frame block machine found last)
    (hfound : found.eval call frame .returnValue last = .ok value after) (before : Value) :
    evalBlock call frame before block machine = .error (.returned value) after := by
  induction h generalizing before with
  | here =>
      rw [Capuchin.evalBlock, bind_eq_error, Stmt.eval, bind_eq_error]
      exact .inl (.inr ⟨value, after, hfound, rfl⟩)
  | past hstmt hrest ih =>
      rw [Capuchin.evalBlock, bind_eq_error]
      exact .inr ⟨_, _, hstmt, ih hfound _⟩
  | block hbody ih =>
      rw [Capuchin.evalBlock, bind_eq_error, Stmt.eval]
      exact .inl (ih hfound .null)
  | ifThen htest hbranch ih =>
      rw [Capuchin.evalBlock, bind_eq_error, Stmt.eval, bind_eq_error]
      exact .inl (.inr ⟨_, _, htest, ih hfound .null⟩)
  | @ifElse _ _ _ _ _ answer _ _ _ htest hbranch ih =>
      rw [Capuchin.evalBlock, bind_eq_error, Stmt.eval, bind_eq_error]
      refine .inl (.inr ⟨_, _, htest, ?_⟩)
      cases answer with
      | true => exact ih hfound .null
      | false => exact ih hfound .null

end

-- No call and no expression ends in a `return`. A list of statements ends in one exactly when its
-- run comes to a `return` of its own whose expression has a value. What an array literal takes
-- for an element without a value is therefore a failure and never a `return`.
theorem returned_iff_reaches (depth frame : Nat) (machine after : Machine) (value : Value) :
    (∀ function arguments, callFunction depth function arguments frame machine ≠
      .error (.returned value) after) ∧
    (∀ slot (expr : Expr), expr.eval (callFunction depth) frame slot machine ≠
      .error (.returned value) after) ∧
    (∀ last block, evalBlock (callFunction depth) frame last block machine =
        .error (.returned value) after ↔
      ReturnsFrom (callFunction depth) frame block machine value after) ∧
    (∀ element : Expr,
      attempt (element.eval (callFunction depth) frame .arrayElement) machine = .ok none after →
        ∃ error, element.eval (callFunction depth) frame .arrayElement machine =
          .error (.failed error) after) := by
  have h : Primitives anyMachine notReturned (callFunction depth) frame :=
    primitives_notReturned fun function arguments =>
      callFunction_notReturned depth function arguments frame
  refine ⟨?_, ?_, ?_, ?_⟩
  · intro function arguments
    exact (h.call function arguments).ne_returned
  · intro slot expr
    exact (expr.eval_maintains h slot).ne_returned
  · intro last block
    constructor
    · exact evalBlock_returned h last block
    · rintro ⟨found, before, hreach, hfound⟩
      exact hreach.evalBlock hfound last
  · intro element hnone
    rw [attempt_run] at hnone
    cases hr : element.eval (callFunction depth) frame .arrayElement machine with
    | ok result between => simp [hr] at hnone
    | error signal between =>
        cases signal with
        | returned result => exact absurd hr (element.eval_maintains h .arrayElement).ne_returned
        | failed error =>
            obtain rfl : between = after := by simpa [hr] using hnone
            exact ⟨error, rfl⟩
        | _ => simp [hr] at hnone

end Capuchin
