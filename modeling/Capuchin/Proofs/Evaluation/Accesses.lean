import Capuchin.Proofs.Evaluation.Discipline
import Mathlib

-- Every access to a frame, to an argument and to an element is in range, at any place of a run.
namespace Capuchin

open Eval Environment

namespace Eval

-- A run of `y` from `last` is a part of a run of `x` from `machine`: the computation itself, what
-- comes first or second in a sequence, what is caught, and what is done in a frame.
inductive Part {β : Type} (y : Eval β) (last : Machine) : {α : Type} → Eval α → Machine → Prop
  | self : Part y last y last
  | first {α γ : Type} {x : Eval α} {next : α → Eval γ} {machine : Machine}
      (h : Part y last x machine) : Part y last (x >>= next) machine
  | second {α γ : Type} {x : Eval α} {next : α → Eval γ} {machine between : Machine} {value : α}
      (hx : x machine = .ok value between) (h : Part y last (next value) between) :
      Part y last (x >>= next) machine
  | attempt {α : Type} {x : Eval α} {machine : Machine} (h : Part y last x machine) :
      Part y last (attempt x) machine
  | catchReturn {x : Eval Value} {machine : Machine} (h : Part y last x machine) :
      Part y last (catchReturn x) machine
  | body {α : Type} {parent : Nat} {body : Nat → Eval α} {machine : Machine}
      (hlive : parent < machine.environment.depth)
      (h : Part y last (body machine.environment.depth) (entered parent machine)) :
      Part y last (inFrame parent body) machine
  | release {α : Type} {parent : Nat} {body : Nat → Eval α} {machine : Machine}
      (hlive : parent < machine.environment.depth)
      (h : Part y last (release machine.environment.depth)
        (stateAfter (body machine.environment.depth) (entered parent machine))) :
      Part y last (inFrame parent body) machine

variable {α β : Type} {machine last : Machine}

-- A run with an access out of range.
def Stuck (x : Eval α) (machine : Machine) : Prop := ∃ after, x machine = .error .stuck after

theorem stuck_iff {x : Eval α} : Stuck x machine ↔ outcome x machine = .error .stuck := by
  unfold Stuck outcome
  cases x machine <;> simp

theorem release_stuck {frame : Nat} {signal : Signal} {after : Machine}
    (h : release frame machine = .error signal after) : signal = .stuck := by
  rw [release_ite] at h
  split at h
  · cases h
  · cases h
    rfl

-- The frame of a call is released whatever its body ends with, and then `stuck` is still the
-- signal.
theorem inFrame_stuck {parent : Nat} {body : Nat → Eval α}
    (hlive : parent < machine.environment.depth)
    (h : Stuck (body machine.environment.depth) (entered parent machine) ∨
      Stuck (release machine.environment.depth)
        (stateAfter (body machine.environment.depth) (entered parent machine))) :
    Stuck (inFrame parent body) machine := by
  rw [Stuck, inFrame_run body hlive]
  unfold Stuck stateAfter at h
  cases hbody : body machine.environment.depth (entered parent machine) with
  | ok value after =>
      obtain ⟨_, hstuck⟩ | ⟨released, hstuck⟩ := h
      · simp [hbody] at hstuck
      · rw [hbody] at hstuck
        exact ⟨released, by simp only [hstuck]⟩
  | error signal after =>
      dsimp only
      cases hrelease : release machine.environment.depth after with
      | ok _ released =>
          obtain ⟨_, hstuck⟩ | ⟨_, hstuck⟩ := h
          · rw [hbody] at hstuck
            cases hstuck
            exact ⟨released, rfl⟩
          · simp [hbody, hrelease] at hstuck
      | error other released =>
          obtain rfl := release_stuck hrelease
          exact ⟨released, rfl⟩

-- Nothing catches `stuck`: a run that has a part with an access out of range ends there.
theorem Part.stuck {y : Eval β} {x : Eval α} (h : Part y last x machine) (hy : Stuck y last) :
    Stuck x machine := by
  induction h with
  | self => exact hy
  | first _ ih =>
      obtain ⟨after, hx⟩ := ih
      exact ⟨after, by rw [bind_run, hx]⟩
  | second hx _ ih =>
      obtain ⟨after, hnext⟩ := ih
      refine ⟨after, ?_⟩
      rw [bind_run, hx]
      exact hnext
  | attempt _ ih =>
      obtain ⟨after, hx⟩ := ih
      exact ⟨after, by rw [attempt_run, hx]⟩
  | catchReturn _ ih =>
      obtain ⟨after, hx⟩ := ih
      exact ⟨after, by rw [catchReturn_run, hx]⟩
  | body hlive _ ih => exact inFrame_stuck hlive (.inl ih)
  | release hlive _ ih => exact inFrame_stuck hlive (.inr ih)

-- The frames that a run looks up, binds in, pushes under and pops are live, the popped one as the
-- last of them, and the arguments and elements that it picks are there.
structure InRange (x : Eval α) (machine : Machine) : Prop where
  ends : outcome x machine ≠ .error .stuck
  get : ∀ frame name last, Part (lookup frame name) last x machine →
    frame < last.environment.depth ∧ last.environment.get frame name ≠ .broken
  set : ∀ frame name value last, Part (bindName frame name value) last x machine →
    frame < last.environment.depth
  push : ∀ {β : Type} parent (body : Nat → Eval β) last,
    Part (inFrame parent body) last x machine → parent < last.environment.depth
  pop : ∀ frame last, Part (release frame) last x machine → frame + 1 = last.environment.depth
  argument : ∀ arguments position last,
    Part (Builtin.argument arguments position) last x machine → position < arguments.length
  element : ∀ elements position last, Part (element elements (.integer position)) last x machine →
    ∀ index, Integer.index? position elements.length = some index → index < elements.length

-- A lookup that leaves the live frames is broken, so one in a dead frame is.
theorem lookup_stuck {frame : Nat} {name : String}
    (h : ¬(frame < last.environment.depth ∧ last.environment.get frame name ≠ .broken)) :
    Stuck (lookup frame name) last := by
  have hbroken : last.environment.get frame name = .broken := by
    by_contra hget
    refine h ⟨?_, hget⟩
    by_contra hdead
    refine hget ?_
    rw [Environment.get, Array.getElem?_eq_none (Nat.le_of_not_lt hdead)]
  exact ⟨last, by rw [lookup_run, hbroken]⟩

theorem argument_stuck {arguments : List Value} {position : Nat}
    (h : ¬position < arguments.length) : Stuck (Builtin.argument arguments position) last := by
  refine ⟨last, ?_⟩
  rw [Builtin.argument, List.getElem?_eq_none (Nat.le_of_not_lt h)]
  rfl

theorem element_stuck {elements : List Value} {position : Int32} {index : Nat}
    (hindex : Integer.index? position elements.length = some index)
    (h : ¬index < elements.length) : Stuck (element elements (.integer position)) last := by
  refine ⟨last, ?_⟩
  simp only [element, hindex, List.getElem?_eq_none (Nat.le_of_not_lt h)]
  rfl

-- Each access checks its range, so a run that is not stuck at its end is in range throughout.
theorem inRange_of_ne_stuck {x : Eval α} (h : outcome x machine ≠ .error .stuck) :
    InRange x machine := by
  have hnot : ∀ {β : Type} {y : Eval β} {last : Machine}, Part y last x machine →
      ¬Stuck y last := fun hpart hy => h (stuck_iff.mp (hpart.stuck hy))
  refine ⟨h, ?_, ?_, ?_, ?_, ?_, ?_⟩
  · intro frame name last hpart
    by_contra hrange
    exact hnot hpart (lookup_stuck hrange)
  · intro frame name value last hpart
    by_contra hdead
    exact hnot hpart ⟨last, bindName_run_of_dead name value hdead⟩
  · intro β parent body last hpart
    by_contra hdead
    exact hnot hpart ⟨last, inFrame_run_of_dead body hdead⟩
  · intro frame last hpart
    by_contra hlast
    exact hnot hpart ⟨last, release_run_of_not_last hlast⟩
  · intro arguments position last hpart
    by_contra hrange
    exact hnot hpart (argument_stuck hrange)
  · intro elements position last hpart index hindex
    by_contra hrange
    exact hnot hpart (element_stuck hindex hrange)

end Eval

-- What can be asked of an evaluator: to evaluate a program, to visit it so that a `return` comes
-- out, to evaluate a part of a tree, and to call a function.
inductive Step where
  | evaluate (program : Program)
  | visit (program : Program)
  | statement (stmt : Stmt)
  | expression (slot : Slot) (expr : Expr)
  | call (function : Function) (arguments : List Value)

-- A step is taken in the root frame, with a bound on nested calls.
def Step.action (depth : Nat) : Step → Eval Value
  | evaluate program => program.eval depth
  | visit program => program.visit depth
  | statement stmt => stmt.eval (callFunction depth) root
  | expression slot expr => expr.eval (callFunction depth) root slot
  | call function arguments => callFunction depth function arguments root

-- The machine behind steps, however each of them has ended.
def Machine.afterSteps (machine : Machine) (steps : List (Nat × Step)) : Machine :=
  steps.foldl (fun machine (depth, step) => stateAfter (step.action depth) machine) machine

theorem Step.action_maintains (depth : Nat) {environment : Environment}
    (hw : environment.WellFormed) (step : Step) :
    Maintains (fun machine => OnlyChanged root environment machine.environment) anything notStuck
      (step.action depth) := by
  have hp := callFunction_primitives depth hw hw.depth_pos
  cases step with
  | evaluate program => exact program.eval_maintains depth hw
  | visit program => exact program.visit_maintains depth hw
  | statement stmt => exact stmt.eval_maintains hp (by simp)
  | expression slot expr => exact expr.eval_maintains hp slot
  | call function arguments => exact hp.call function arguments

theorem Step.inRange (depth : Nat) (step : Step) {machine : Machine}
    (hw : machine.environment.WellFormed) : InRange (step.action depth) machine :=
  inRange_of_ne_stuck fun hs => (step.action_maintains depth hw).signal (.refl _ _) hs rfl

theorem Machine.afterSteps_wellFormed {machine : Machine} (hw : machine.environment.WellFormed)
    (steps : List (Nat × Step)) : (machine.afterSteps steps).environment.WellFormed := by
  induction steps generalizing machine with
  | nil => exact hw
  | cons first rest ih =>
      obtain ⟨depth, step⟩ := first
      have hchanged := (step.action_maintains depth hw).stateAfter (.refl _ _)
      exact ih (hchanged.wellFormed hw)

-- Whatever has been asked of an evaluator, with or without builtins, nothing that is asked of it
-- next leads to an access out of range.
theorem steps_inRange (input : List String) (earlier : List (Nat × Step)) (depth : Nat)
    (step : Step) :
    InRange (step.action depth) ((Machine.bare input).afterSteps earlier) ∧
      InRange (step.action depth) ((Machine.fresh input).afterSteps earlier) := by
  have hbare : (Machine.bare input).environment.WellFormed := empty_wellFormed
  have hfresh : (Machine.fresh input).environment.WellFormed :=
    (onlyChanged_install .empty root).wellFormed empty_wellFormed
  exact ⟨step.inRange depth (Machine.afterSteps_wellFormed hbare earlier),
    step.inRange depth (Machine.afterSteps_wellFormed hfresh earlier)⟩

-- A call of `push` picks its second argument, in a machine where a program has been evaluated.
theorem steps_inRange_push :
    let machine := (Machine.fresh []).afterSteps [(1, .evaluate [.bind (some "x") (.integer 1)])]
    let arguments := [.array [], .integer 2]
    let step : Step := .call (.builtin .push) arguments
    Part (Builtin.argument arguments 1) (entered root machine) (step.action 1) machine ∧
      1 < arguments.length := by
  intro machine arguments step
  have hrange := (steps_inRange [] [(1, .evaluate [.bind (some "x") (.integer 1)])] 1 step).2
  have hpart : Part (Builtin.argument arguments 1) (entered root machine)
      (inFrame root fun frame => Function.invoke (callFunction 0) frame arguments (.builtin .push))
      machine := by
    have hlive : root < machine.environment.depth := by decide +kernel
    have hcheck : (ofExcept (Builtin.push.arity.check arguments.length) : Eval Unit)
        (entered root machine) = .ok () (entered root machine) := rfl
    have hfirst : Builtin.arrayArgument arguments (entered root machine) =
        .ok [] (entered root machine) := rfl
    refine .body hlive ?_
    refine .second hcheck ?_
    exact .second hfirst (.first .self)
  exact ⟨hpart, hrange.argument _ _ _ hpart⟩

end Capuchin
