import Capuchin.Proofs.Evaluation.Discipline
import Capuchin.Proofs.Evaluation.Following
import Mathlib

-- More names in reach do not change a run that succeeds.
namespace Capuchin

open Eval Environment

-- From `place` of the second machine every name is resolved that is resolved from `frame` of the
-- first one, and to the same value. The machines have the same console and number new functions
-- alike.
structure Widens (frame place : Nat) (machine other : Machine) : Prop where
  live : place < other.environment.depth
  names : ∀ name value, machine.environment.get frame name = .bound value →
    other.environment.get place name = .bound value
  console : other.console = machine.console
  created : other.created = machine.created

-- The signals of a run that has neither failed nor been cut off.
def isReturn : Signal → Prop
  | .returned _ => True
  | _ => False

section

variable {frame place : Nat}

theorem Widens.set {machine other : Machine} (h : Widens frame place machine other)
    (hlive : frame < machine.environment.depth) (name : String) (value : Value) :
    Widens frame place
      { machine with environment := machine.environment.set frame name value }
      { other with environment := other.environment.set place name value } where
  live := by simpa using h.live
  names := by
    intro sought found hfound
    rw [get_set_self hlive] at hfound
    rw [get_set_self h.live]
    by_cases hname : sought = name
    · simpa [hname] using hfound
    · rw [if_neg hname] at hfound ⊢
      exact h.names sought found hfound
  console := h.console
  created := h.created

theorem Widens.entered {machine other : Machine} (h : Widens frame place machine other)
    (hlive : frame < machine.environment.depth) :
    Widens machine.environment.depth other.environment.depth (entered frame machine)
      (entered place other) where
  live := by simp [Eval.entered]
  names := by
    intro name value hbound
    have hbefore := (get_push_depth hlive name).symm.trans hbound
    exact (get_push_depth h.live name).trans (h.names name value hbefore)
  console := h.console
  created := h.created

-- If calls follow, all that evaluation rests on does. A name that the first machine does not
-- resolve ends its run in a failure.
theorem paired_widens {call : Caller}
    (hcall : ∀ function arguments, Follows (Widens frame place) isReturn anything
      (call function arguments frame) (call function arguments place)) :
    Paired (Widens frame place) isReturn call frame call place where
  returned := fun _ => trivial
  failures := by
    right
    intro signal h
    cases signal with
    | returned value => exact ⟨value, rfl⟩
    | _ => exact False.elim h
  lookup := by
    intro name machine other h hc
    rw [lookup_run] at hc ⊢
    rw [lookup_run]
    cases hbound : machine.environment.get frame name with
    | bound value =>
        rw [h.names name value hbound]
        exact .ok value h
    | unbound | broken =>
        rw [hbound] at hc
        exact False.elim hc
  bindName := by
    intro name value machine other h hc
    by_cases hlive : frame < machine.environment.depth
    · rw [bindName_run name value hlive, bindName_run name value h.live]
      exact .ok () (h.set hlive name value)
    · rw [bindName_run_of_dead name value hlive] at hc
      exact False.elim hc
  newFunction := by
    intro parameters body machine other h _
    rw [newFunction_run, newFunction_run, h.created]
    exact .ok _ { h with created := congrArg (· + 1) rfl }
  write := by
    intro text machine other h _
    rw [write_run, write_run, h.console]
    exact .ok () { h with console := rfl }
  readLine := by
    intro machine other h _
    rw [readLine_run, readLine_run, h.console]
    cases machine.console.readLine? with
    | none => exact .error _ h
    | some line => exact .ok line.1 { h with console := rfl }
  call := hcall

-- What a body does to the environment is undone in both runs, so that the call leaves the machines
-- as they were but for the console and the number of functions.
theorem inFrame_follows {body last : Nat → Eval Value}
    (hbody : ∀ environment : Environment, frame < environment.depth →
      Maintains (fun machine => OnlyChanged environment.depth (environment.push frame).1
        machine.environment) anything anything (body environment.depth))
    (hlast : ∀ environment : Environment, place < environment.depth →
      Maintains (fun machine => OnlyChanged environment.depth (environment.push place).1
        machine.environment) anything anything (last environment.depth))
    (hfollows : ∀ inner below, Follows (Widens inner below) isReturn anything (body inner)
      (last below)) :
    Follows (Widens frame place) isReturn anything (inFrame frame body) (inFrame place last) := by
  intro machine other h hc
  by_cases hlive : frame < machine.environment.depth
  · have hkeep : OnlyChanged machine.environment.depth (machine.environment.push frame).1
        (stateAfter (body machine.environment.depth) (entered frame machine)).environment :=
      (hbody machine.environment hlive).stateAfter (.refl _ _)
    have hkept : OnlyChanged other.environment.depth (other.environment.push place).1
        (stateAfter (last other.environment.depth) (entered place other)).environment :=
      (hlast other.environment h.live).stateAfter (.refl _ _)
    have hagree := hfollows _ _ _ _ (h.entered hlive)
    rw [inFrame_run_of_onlyChanged hlive hkeep] at hc ⊢
    rw [inFrame_run_of_onlyChanged h.live hkept]
    have hback : ∀ {after later : Machine},
        Widens machine.environment.depth other.environment.depth after later →
        Widens frame place { after with environment := machine.environment }
          { later with environment := other.environment } :=
      fun hw => ⟨h.live, h.names, hw.console, hw.created⟩
    generalize body machine.environment.depth (entered frame machine) = run at hagree hc ⊢
    generalize last other.environment.depth (entered place other) = rerun at hagree ⊢
    cases run with
    | ok value after =>
        cases hagree trivial with
        | ok _ hw => exact .ok value (hback hw)
    | error signal after =>
        cases hagree hc with
        | error _ hw => exact .error signal (hback hw)
  · rw [inFrame_run_of_dead body hlive] at hc
    exact False.elim hc

theorem callFunction_follows (depth : Nat) (function : Function) (arguments : List Value) :
    Follows (Widens frame place) isReturn anything (callFunction depth function arguments frame)
      (callFunction depth function arguments place) := by
  induction depth generalizing frame place function arguments with
  | zero => exact .throw .tooDeep
  | succ depth ih =>
      have hkeeps : ∀ (environment : Environment) (caller : Nat),
          Maintains (fun machine => OnlyChanged environment.depth (environment.push caller).1
            machine.environment) anything anything
            (function.invoke (callFunction depth) environment.depth arguments) := by
        intro environment caller
        apply Function.invoke_maintains
        exact callFunction_onlyChanged (fun _ => trivial) trivial depth (.inl trivial)
      rw [callFunction]
      apply inFrame_follows
      · exact fun environment _ => hkeeps environment frame
      · exact fun environment _ => hkeeps environment place
      · intro inner below
        exact Function.invoke_follows (paired_widens fun f a => ih f a) function arguments

theorem callFunction_paired (depth : Nat) :
    Paired (Widens frame place) isReturn (callFunction depth) frame (callFunction depth) place :=
  paired_widens (callFunction_follows depth)

end

-- A run succeeds that ends in a value or a `return`.
def Succeeds : Except Signal α → Prop
  | .ok _ => True
  | .error signal => isReturn signal

-- If the first run succeeds, the second one ends in the same way with the same console, and has in
-- reach again what the first one has.
def SucceedsAlike (frame place : Nat) (machine other : Machine) (x y : Eval α) : Prop :=
  Succeeds (outcome x machine) →
    outcome y other = outcome x machine ∧
      Widens frame place (stateAfter x machine) (stateAfter y other)

theorem Eval.Follows.succeedsAlike {frame place : Nat} {machine other : Machine} {x y : Eval α}
    (hf : Follows (Widens frame place) isReturn anything x y)
    (h : Widens frame place machine other) : SucceedsAlike frame place machine other x y := by
  intro hs
  have hagree := hf machine other h
  unfold outcome stateAfter at *
  generalize x machine = run at hs hagree ⊢
  generalize y other = rerun at hagree ⊢
  cases run with
  | ok value after =>
      cases hagree trivial with
      | ok _ hw => exact ⟨rfl, hw⟩
  | error signal after =>
      cases hagree hs with
      | error _ hw => exact ⟨rfl, hw⟩

theorem bare_widens_fresh (input : List String) :
    Widens root root (.bare input) (.fresh input) where
  live := by
    have hdepth := (onlyChanged_install .empty root).depth
    change root < (Environment.empty.install root).depth
    rw [hdepth]
    exact Nat.zero_lt_one
  names := by
    intro name value hbound
    have hnone : (Machine.bare input).environment.get root name = .unbound := get_empty name
    rw [hnone] at hbound
    cases hbound
  console := rfl
  created := rfl

-- Nothing in the language can tell that a name is not resolved, short of failing.
theorem evaluation_widens (depth : Nat) :
    (∀ (machine other : Machine) (frame place : Nat), Widens frame place machine other →
      (∀ slot (expr : Expr), SucceedsAlike frame place machine other
        (expr.eval (callFunction depth) frame slot) (expr.eval (callFunction depth) place slot)) ∧
      (∀ stmt : Stmt, SucceedsAlike frame place machine other
        (stmt.eval (callFunction depth) frame) (stmt.eval (callFunction depth) place)) ∧
      (∀ last block, SucceedsAlike frame place machine other
        (evalBlock (callFunction depth) frame last block)
        (evalBlock (callFunction depth) place last block)) ∧
      (∀ function arguments, SucceedsAlike frame place machine other
        (callFunction depth function arguments frame)
        (callFunction depth function arguments place))) ∧
    (∀ (input : List String) (program : Program),
      SucceedsAlike root root (.bare input) (.fresh input) (program.eval depth)
        (program.eval depth)) := by
  refine ⟨?_, ?_⟩
  · intro machine other frame place h
    have hp : Paired (Widens frame place) isReturn (callFunction depth) frame _ place :=
      callFunction_paired depth
    refine ⟨?_, ?_, ?_, ?_⟩
    · intro slot expr
      exact (expr.eval_follows hp slot).succeedsAlike h
    · intro stmt
      exact (stmt.eval_follows hp).succeedsAlike h
    · intro last block
      exact (evalBlock_follows hp last block).succeedsAlike h
    · intro function arguments
      exact (hp.call function arguments).succeedsAlike h
  · intro input program
    have hp : Paired (Widens root root) isReturn (callFunction depth) root _ root :=
      callFunction_paired depth
    exact ((evalBlock_follows hp .null program).catchReturn hp.returned).succeedsAlike
      (bare_widens_fresh input)

-- A call of `fn(y) { return x; }` from a frame that sees `x` in the root, and from a root that
-- binds `x` and `y`.
theorem call_widens :
    let machine : Machine := { Machine.bare [] with
      environment := Environment.empty.set 0 "x" (.integer 1) }
    let other : Machine := { machine with
      environment := machine.environment.set 0 "y" (.integer 2) }
    let call : Expr := .call (.function [some "y"] [.giveBack (.identifier "x")]) [.integer 3]
    Widens 1 0 (entered 0 machine) other ∧
      outcome (call.eval (callFunction 1) 1 .expression) (entered 0 machine) = .ok (.integer 1) ∧
      SucceedsAlike 1 0 (entered 0 machine) other (call.eval (callFunction 1) 1 .expression)
        (call.eval (callFunction 1) 0 .expression) := by
  intro machine other call
  have hw : Widens 1 0 (entered 0 machine) other :=
    { live := Nat.zero_lt_one
      names := by
        intro name value hbound
        have hroot : machine.environment.get 0 name = .bound value :=
          (get_push_depth Nat.zero_lt_one name).symm.trans hbound
        have hx : name = "x" := by
          by_contra hname
          rw [get_set_self Nat.zero_lt_one, if_neg hname, ← root, get_empty] at hroot
          cases hroot
        subst hx
        rw [get_set_self Nat.zero_lt_one, if_neg (by decide)]
        exact hroot
      console := rfl
      created := rfl }
  exact ⟨hw, by cbv, ((evaluation_widens 1).1 _ _ 1 0 hw).1 _ call⟩

end Capuchin
