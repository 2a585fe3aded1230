import Capuchin.Proofs.Evaluation.Simulation
import Capuchin.Proofs.Evaluation.Carrying
import Mathlib

-- Two runs of one tree, from different frames and with different ways to call. As far as the first
-- one ends in a way that counts, the second one ends in the same way.
namespace Capuchin

namespace Eval

-- The endings that count: a value in `V`, a signal in `A`.
def Counts (A : Signal → Prop) (V : α → Prop) : EStateM.Result Signal σ α → Prop
  | .ok value _ => V value
  | .error signal _ => A signal

-- All that was asked for is there, unless what is missing for a failure counts as well.
def Whole (A : Signal → Prop) (result : Option α) : Prop :=
  result = none → ∀ error, A (.failed error)

theorem not_whole {A : Signal → Prop} {result : Option α} (h : ¬Whole A result) :
    result = none ∧ ¬∀ error, A (.failed error) := by
  simpa [Whole] using h

-- From related states, a run of `y` agrees with a run of `x` if the latter counts.
def Follows (R : σ → σ → Prop) (A : Signal → Prop) (V : α → Prop) (x y : EStateM Signal σ α) :
    Prop :=
  ∀ s t, R s t → Counts A V (x s) → Agree R (x s) (y t)

namespace Follows

variable {R : σ → σ → Prop} {A : Signal → Prop} {V : α → Prop} {W : β → Prop}

theorem of_simulates {x y : EStateM Signal σ α} (h : Simulates R x y) : Follows R A V x y :=
  fun s t hr _ => h s t hr

theorem pure (value : α) : Follows R A V (pure value) (pure value) := .of_simulates (.pure value)

theorem throw (signal : Signal) : Follows R A V (throw signal) (throw signal) :=
  .of_simulates (.throw signal)

theorem fail (error : RuntimeError) : Follows R A V (fail error) (fail error) :=
  .of_simulates (.fail error)

theorem ofExcept (result : Except RuntimeError α) :
    Follows R A V (ofExcept result) (ofExcept result) := .of_simulates (.ofExcept result)

-- Behind a value that does not count no ending may count.
theorem bind_of {x y : EStateM Signal σ α} {next other : α → EStateM Signal σ β}
    (hx : Follows R A V x y) (hn : ∀ value, V value → Follows R A W (next value) (other value))
    (hnot : ∀ value, ¬V value → ∀ s, ¬Counts A W (next value s)) :
    Follows R A W (x >>= next) (y >>= other) := by
  intro s t hr hc
  rw [bind_run] at hc ⊢
  rw [bind_run]
  have hagree := hx s t hr
  generalize x s = r at hc hagree ⊢
  generalize y t = q at hagree ⊢
  cases r with
  | ok value s =>
      by_cases hv : V value
      · cases hagree hv with
        | ok _ hr => exact hn value hv _ _ hr hc
      · exact absurd hc (hnot value hv s)
  | error signal s =>
      cases hagree hc with
      | error _ hr => exact .error signal hr

theorem bind {x y : EStateM Signal σ α} {next other : α → EStateM Signal σ β}
    (hx : Follows R A anything x y) (hn : ∀ value, Follows R A W (next value) (other value)) :
    Follows R A W (x >>= next) (y >>= other) :=
  hx.bind_of (fun value _ => hn value) fun _ hv => absurd trivial hv

theorem catchReturn {x y : EStateM Signal σ Value} (hret : ∀ value, A (.returned value))
    (hx : Follows R A anything x y) : Follows R A anything (catchReturn x) (catchReturn y) := by
  intro s t hr hc
  rw [catchReturn_run] at hc ⊢
  rw [catchReturn_run]
  have hagree := hx s t hr
  generalize x s = r at hc hagree ⊢
  generalize y t = q at hagree ⊢
  cases r with
  | ok value s =>
      cases hagree trivial with
      | ok _ hr => exact .ok value hr
  | error signal s =>
      cases signal with
      | returned value =>
          cases hagree (hret value) with
          | error _ hr => exact .ok value hr
      | _ =>
          cases hagree hc with
          | error _ hr => exact .error _ hr

-- A failure that is caught counts only if every failure does.
theorem attempt {x y : EStateM Signal σ α} (hret : ∀ value, A (.returned value))
    (hx : Follows R A anything x y) :
    Follows R A (Whole A) (attempt x) (attempt y) := by
  intro s t hr hc
  rw [attempt_run] at hc ⊢
  rw [attempt_run]
  have hagree := hx s t hr
  generalize x s = r at hc hagree ⊢
  generalize y t = q at hagree ⊢
  cases r with
  | ok value s =>
      cases hagree trivial with
      | ok _ hr => exact .ok _ hr
  | error signal s =>
      cases signal with
      | returned value =>
          cases hagree (hret value) with
          | error _ hr => exact .ok none hr
      | failed error =>
          cases hagree (hc rfl error) with
          | error _ hr => exact .ok none hr
      | _ =>
          cases hagree hc with
          | error _ hr => exact .error _ hr

end Follows

end Eval

open Eval

-- What the second run rests on, primitive by primitive. A `return` counts, and of the failures
-- either all count or none.
structure Paired (R : Machine → Machine → Prop) (A : Signal → Prop) (call : Caller) (frame : Nat)
    (other : Caller) (place : Nat) : Prop where
  returned : ∀ value, A (.returned value)
  failures : (∀ error, A (.failed error)) ∨ ∀ signal, A signal → ∃ value, signal = .returned value
  lookup : ∀ name, Follows R A anything (lookup frame name) (lookup place name)
  bindName : ∀ name value,
    Follows R A anything (bindName frame name value) (bindName place name value)
  newFunction : ∀ parameters body,
    Follows R A anything (newFunction parameters body) (newFunction parameters body)
  write : ∀ text, Follows R A anything (write text) (write text)
  readLine : Follows R A anything readLine readLine
  call : ∀ function arguments,
    Follows R A anything (call function arguments frame) (other function arguments place)

-- The elements of an array literal let no `return` through, since each is attempted.
theorem evalElements_ne_returned (call : Caller) (frame : Nat) (elements : List Expr)
    (machine after : Machine) (value : Value) :
    evalElements call frame elements machine ≠ .error (.returned value) after := by
  induction elements generalizing machine with
  | nil => nofun
  | cons element rest ih =>
      cases element with
      | missing => nofun
      | _ =>
          rw [evalElements, ne_eq, bind_eq_error]
          · rintro (hfirst | ⟨first, between, -, hrest⟩)
            · rw [attempt_run] at hfirst
              split at hfirst <;> simp_all
            · rw [bind_eq_error] at hrest
              obtain hrest | ⟨values, last, -, hpure⟩ := hrest
              · exact ih between hrest
              · cases hpure
          · simp

section Trees

variable {R : Machine → Machine → Prop} {A : Signal → Prop} {call other : Caller}
  {frame place : Nat}

theorem capture_follows (h : Paired R A call frame other place) (parameters : List (Option String))
    (body : Block) : Follows R A anything (capture parameters body) (capture parameters body) := by
  unfold capture
  cases parameters.mapM id with
  | none => exact .fail _
  | some names => exact h.newFunction names body

-- Where one failure counts, all do.
theorem Paired.failures_of (h : Paired R A call frame other place) {error : RuntimeError}
    (ha : A (.failed error)) : ∀ error, A (.failed error) := by
  obtain hall | hnone := h.failures
  · exact hall
  · obtain ⟨value, hvalue⟩ := hnone _ ha
    cases hvalue

-- With an element lost to a failure that does not count, nothing that comes behind it counts.
theorem Paired.lost_element (h : Paired R A call frame other place)
    (hall : ¬∀ error, A (.failed error)) (rest : List Expr) (machine : Machine) :
    ¬Counts A (Whole A) ((do
        let values ← evalElements call frame rest
        return none.bind fun first => values.map (first :: ·) :
      Eval (Option (List Value))) machine) := by
  intro hc
  rw [bind_run] at hc
  cases hr : evalElements call frame rest machine with
  | ok values after =>
      rw [hr] at hc
      exact hall (hc rfl)
  | error signal after =>
      rw [hr] at hc
      obtain ⟨value, rfl⟩ := h.failures.resolve_left hall signal hc
      exact evalElements_ne_returned call frame rest machine after value hr

mutual

theorem Expr.eval_follows (h : Paired R A call frame other place) (slot : Slot) (expr : Expr) :
    Follows R A anything (expr.eval call frame slot) (expr.eval other place slot) := by
  cases expr with
  | missing => exact .fail _
  | identifier name => exact h.lookup name
  | integer value => exact .pure _
  | float value => exact .pure _
  | string literal => exact .pure _
  | boolean value => exact .pure _
  | array elements =>
      rw [Expr.eval, Expr.eval]
      refine (evalElements_follows h elements).bind_of (fun values _ => ?_) fun values hv => ?_
      · cases values with
        | some values => exact .pure _
        | none => exact .fail _
      · obtain ⟨rfl, hall⟩ := not_whole hv
        exact fun _ hc => hall (h.failures_of hc)
  | binary op left right =>
      rw [Expr.eval, Expr.eval]
      refine (left.eval_follows h .leftOperand).bind fun a => ?_
      exact (right.eval_follows h .rightOperand).bind fun b => .ofExcept _
  | unary op operand =>
      rw [Expr.eval, Expr.eval]
      exact (operand.eval_follows h .operand).bind fun a => .ofExcept _
  | call callee arguments =>
      rw [Expr.eval, Expr.eval]
      refine (callee.eval_follows h .callee).bind fun value => ?_
      cases value with
      | function function =>
          exact (evalArguments_follows h arguments).bind fun values => h.call function values
      | _ => exact .fail _
  | assignment name value =>
      rw [Expr.eval, Expr.eval]
      refine (value.eval_follows h .assignedValue).bind fun result => ?_
      exact (h.bindName name result).bind fun _ => .pure result
  | index array position =>
      rw [Expr.eval, Expr.eval]
      refine (array.eval_follows h .array).bind fun value => ?_
      cases value with
      | array elements =>
          exact (position.eval_follows h .index).bind fun value =>
            .of_simulates (.element elements value)
      | _ => exact .fail _
  | function parameters body => exact capture_follows h parameters body

theorem evalArguments_follows (h : Paired R A call frame other place) (arguments : List Expr) :
    Follows R A anything (evalArguments call frame arguments)
      (evalArguments other place arguments) := by
  cases arguments with
  | nil => exact .pure _
  | cons argument rest =>
      rw [evalArguments, evalArguments]
      refine (argument.eval_follows h .argument).bind fun value => ?_
      exact (evalArguments_follows h rest).bind fun values => .pure _

theorem evalElements_follows (h : Paired R A call frame other place) (elements : List Expr) :
    Follows R A (Whole A) (evalElements call frame elements)
      (evalElements other place elements) := by
  cases elements with
  | nil => exact .pure _
  | cons element rest =>
      have hrest := evalElements_follows h rest
      have helement := element.eval_follows h .arrayElement
      cases element with
      | missing => exact .fail _
      | _ =>
          rw [evalElements, evalElements]
          · refine (helement.attempt h.returned).bind_of (fun value _ => ?_) fun value hv => ?_
            · refine hrest.bind_of (fun values _ => .pure _) fun values hvs machine hc => ?_
              obtain ⟨rfl, hall⟩ := not_whole hvs
              exact hall (hc (by cases value <;> rfl))
            · obtain ⟨rfl, hall⟩ := not_whole hv
              exact h.lost_element hall rest
          all_goals simp

end

mutual

theorem Stmt.eval_follows (h : Paired R A call frame other place) (stmt : Stmt) :
    Follows R A anything (stmt.eval call frame) (stmt.eval other place) := by
  cases stmt with
  | bind name value =>
      cases name with
      | none => exact .fail _
      | some name =>
          rw [Stmt.eval, Stmt.eval]
          refine (value.eval_follows h .letValue).bind fun result => ?_
          exact (h.bindName name result).bind fun _ => .pure result
  | giveBack value =>
      rw [Stmt.eval, Stmt.eval]
      exact (value.eval_follows h .returnValue).bind fun result => .throw _
  | ifThen test consequence =>
      rw [Stmt.eval, Stmt.eval]
      refine (test.eval_follows h .condition).bind fun value => ?_
      refine (Follows.of_simulates (.condition value)).bind fun answer => ?_
      cases answer with
      | true => exact evalBlock_follows h .null consequence
      | false => exact .pure _
  | ifElse test consequence alternative =>
      rw [Stmt.eval, Stmt.eval]
      refine (test.eval_follows h .condition).bind fun value => ?_
      refine (Follows.of_simulates (.condition value)).bind fun answer => ?_
      cases answer with
      | true => exact evalBlock_follows h .null consequence
      | false => exact evalBlock_follows h .null alternative
  | whileLoop test body => exact .fail _
  | block body => exact evalBlock_follows h .null body
  | define name parameters body =>
      rw [Stmt.eval, Stmt.eval]
      refine (capture_follows h parameters body).bind fun function => ?_
      exact (h.bindName name function).bind fun _ => .pure function
  | expression value => exact value.eval_follows h .expression

theorem evalBlock_follows (h : Paired R A call frame other place) (last : Value) (block : Block) :
    Follows R A anything (evalBlock call frame last block) (evalBlock other place last block) := by
  cases block with
  | nil => exact .pure _
  | cons stmt rest =>
      rw [evalBlock, evalBlock]
      exact (stmt.eval_follows h).bind fun value => evalBlock_follows h value rest

end

namespace Builtin

theorem argument_follows (arguments : List Value) (position : Nat) :
    Follows R A anything (argument arguments position) (argument arguments position) := by
  unfold argument
  cases arguments[position]? with
  | some value => exact .pure value
  | none => exact .throw _

theorem arrayArgument_follows (arguments : List Value) :
    Follows R A anything (arrayArgument arguments) (arrayArgument arguments) := by
  refine (argument_follows arguments 0).bind fun value => ?_
  cases value with
  | array elements => exact .pure elements
  | _ => exact .fail _

theorem functionArgument_follows (arguments : List Value) :
    Follows R A anything (functionArgument arguments) (functionArgument arguments) := by
  refine (argument_follows arguments 1).bind fun value => ?_
  cases value with
  | function function => exact .pure function
  | _ => exact .fail _

theorem stringArgument_follows (arguments : List Value) :
    Follows R A anything (stringArgument arguments) (stringArgument arguments) := by
  refine (argument_follows arguments 0).bind fun value => ?_
  cases value with
  | string text => exact .pure text
  | _ => exact .fail _

theorem converted_follows (text : String) (target : Kind) (reading : Option Value) :
    Follows R A anything (converted text target reading) (converted text target reading) := by
  cases reading with
  | some value => exact .pure value
  | none => exact .fail _

theorem printAll_follows (h : Paired R A call frame other place) (ending : String)
    (values : List Value) :
    Follows R A anything (printAll ending values) (printAll ending values) := by
  induction values with
  | nil => exact .pure ()
  | cons value rest ih => exact (h.write _).bind fun _ => ih

theorem mapped_follows {callback last : Value → Eval Value}
    (hc : ∀ value, Follows R A anything (callback value) (last value)) (elements : List Value) :
    Follows R A anything (mapped callback elements) (mapped last elements) := by
  induction elements with
  | nil => exact .pure []
  | cons element rest ih => exact (hc element).bind fun result => ih.bind fun results => .pure _

theorem filtered_follows {callback last : Value → Eval Value}
    (hc : ∀ value, Follows R A anything (callback value) (last value)) (elements : List Value) :
    Follows R A anything (filtered callback elements) (filtered last elements) := by
  induction elements with
  | nil => exact .pure []
  | cons element rest ih => exact (hc element).bind fun result => ih.bind fun kept => .pure _

theorem reduced_follows {callback last : Value → Value → Eval Value}
    (hc : ∀ before value, Follows R A anything (callback before value) (last before value))
    (before : Value) (elements : List Value) :
    Follows R A anything (reduced callback before elements) (reduced last before elements) := by
  induction elements generalizing before with
  | nil => exact .pure before
  | cons element rest ih => exact (hc before element).bind fun result => ih result

theorem run_follows (h : Paired R A call frame other place) (builtin : Builtin)
    (arguments : List Value) :
    Follows R A anything (builtin.run call frame arguments)
      (builtin.run other place arguments) := by
  cases builtin with
  | print => exact (printAll_follows h "" arguments).bind fun _ => .pure _
  | println => exact (printAll_follows h "\n" arguments).bind fun _ => .pure _
  | input => exact h.readLine.bind fun line => .pure _
  | len =>
      refine (argument_follows arguments 0).bind fun value => ?_
      cases value with
      | string text => exact .pure _
      | array elements => exact .pure _
      | _ => exact .fail _
  | push =>
      refine (arrayArgument_follows arguments).bind fun elements => ?_
      exact (argument_follows arguments 1).bind fun value => .pure _
  | pop =>
      refine (arrayArgument_follows arguments).bind fun elements => ?_
      cases elements with
      | nil => exact .fail _
      | cons element rest => exact .pure _
  | toInt =>
      exact (stringArgument_follows arguments).bind fun text => converted_follows text _ _
  | toFloat =>
      exact (stringArgument_follows arguments).bind fun text => converted_follows text _ _
  | map =>
      refine (arrayArgument_follows arguments).bind fun elements => ?_
      refine (functionArgument_follows arguments).bind fun function => ?_
      exact (mapped_follows (fun value => h.call function [value]) elements).bind
        fun results => .pure _
  | filter =>
      refine (arrayArgument_follows arguments).bind fun elements => ?_
      refine (functionArgument_follows arguments).bind fun function => ?_
      exact (filtered_follows (fun value => h.call function [value]) elements).bind
        fun kept => .pure _
  | reduce =>
      refine (arrayArgument_follows arguments).bind fun elements => ?_
      refine (functionArgument_follows arguments).bind fun function => ?_
      refine (argument_follows arguments 2).bind fun start => ?_
      exact reduced_follows (fun before value => h.call function [before, value]) start elements

end Builtin

theorem bindNames_follows (h : Paired R A call frame other place) (names : List String)
    (values : List Value) :
    Follows R A anything (bindNames frame names values) (bindNames place names values) := by
  induction names generalizing values with
  | nil => exact .pure ()
  | cons name names ih =>
      cases values with
      | nil => exact .pure ()
      | cons value values => exact (h.bindName name value).bind fun _ => ih values

theorem Function.invoke_follows (h : Paired R A call frame other place) (function : Function)
    (arguments : List Value) :
    Follows R A anything (function.invoke call frame arguments)
      (function.invoke other place arguments) := by
  cases function with
  | user number parameters body =>
      refine (Follows.ofExcept _).bind fun _ => ?_
      refine (bindNames_follows h parameters arguments).bind fun _ => ?_
      exact (evalBlock_follows h .null body).catchReturn h.returned
  | builtin b => exact (Follows.ofExcept _).bind fun _ => b.run_follows h arguments

end Trees

end Capuchin
