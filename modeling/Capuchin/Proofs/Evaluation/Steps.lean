import Capuchin.Evaluation.Machine
import Mathlib

-- What each primitive of the machine does, as an equation on its run.
namespace Capuchin.Eval

variable {σ : Type} {α β : Type}

-- The two halves of a run: what comes of it, and the state it leaves.
def outcome (x : EStateM Signal σ α) (state : σ) : Except Signal α :=
  match x state with
  | .ok value _ => .ok value
  | .error signal _ => .error signal

def stateAfter (x : EStateM Signal σ α) (state : σ) : σ :=
  match x state with
  | .ok _ after => after
  | .error _ after => after

@[simp] theorem pure_run (value : α) (state : σ) :
    (pure value : EStateM Signal σ α) state = .ok value state := rfl

@[simp] theorem throw_run (signal : Signal) (state : σ) :
    (throw signal : EStateM Signal σ α) state = .error signal state := rfl

theorem bind_run (x : EStateM Signal σ α) (next : α → EStateM Signal σ β) (state : σ) :
    (x >>= next) state =
      match x state with
      | .ok value after => next value after
      | .error signal after => .error signal after := by
  change EStateM.bind x next state = _
  rw [EStateM.bind]
  cases x state <;> rfl

-- A sequence stops with a signal in its first part, or in the second one behind a value.
theorem bind_eq_error {x : EStateM Signal σ α} {next : α → EStateM Signal σ β} {state after : σ}
    {signal : Signal} :
    (x >>= next) state = .error signal after ↔
      x state = .error signal after ∨
        ∃ value between, x state = .ok value between ∧
          next value between = .error signal after := by
  rw [bind_run]
  cases x state <;> simp

theorem tryCatch_run (x : EStateM Signal σ α) (handler : Signal → EStateM Signal σ α)
    (state : σ) :
    tryCatch x handler state =
      match x state with
      | .ok value after => .ok value after
      | .error signal after => handler signal after := by
  change EStateM.tryCatch x handler state = _
  rw [EStateM.tryCatch]
  cases x state <;> rfl

@[simp] theorem fail_run (error : RuntimeError) (state : σ) :
    (fail error : EStateM Signal σ α) state = .error (.failed error) state := rfl

theorem lookup_run (frame : Nat) (name : String) (machine : Machine) :
    lookup frame name machine =
      match machine.environment.get frame name with
      | .bound value => .ok value machine
      | .unbound => .error (.failed (.unknownIdentifier name)) machine
      | .broken => .error .stuck machine := by
  change (match machine.environment.get frame name with
    | .bound value => (pure value : Eval Value)
    | .unbound => fail (.unknownIdentifier name)
    | .broken => throw Signal.stuck) machine = _
  cases machine.environment.get frame name <;> rfl

theorem bindName_ite (frame : Nat) (name : String) (value : Value) (machine : Machine) :
    bindName frame name value machine =
      if frame < machine.environment.depth then
        .ok () { machine with environment := machine.environment.set frame name value }
      else .error .stuck machine := by
  change (if frame < machine.environment.depth then
    (set { machine with environment := machine.environment.set frame name value } : Eval Unit)
    else throw .stuck) machine = _
  split <;> rfl

theorem bindName_run {frame : Nat} (name : String) (value : Value) {machine : Machine}
    (hlive : frame < machine.environment.depth) :
    bindName frame name value machine =
      .ok () { machine with environment := machine.environment.set frame name value } := by
  rw [bindName_ite, if_pos hlive]

theorem bindName_run_of_dead {frame : Nat} (name : String) (value : Value) {machine : Machine}
    (hdead : ¬frame < machine.environment.depth) :
    bindName frame name value machine = .error .stuck machine := by
  rw [bindName_ite, if_neg hdead]

theorem write_run (text : String) (machine : Machine) :
    write text machine = .ok () { machine with console := machine.console.write text } := rfl

theorem readLine_run (machine : Machine) :
    readLine machine =
      match machine.console.readLine? with
      | some (line, console) => .ok line { machine with console }
      | none => .error (.failed .inputExhausted) machine := by
  change (match machine.console.readLine? with
    | some (line, console) => (do
        set { machine with console }
        return line : Eval String)
    | none => fail .inputExhausted) machine = _
  cases machine.console.readLine? <;> rfl

theorem newFunction_run (parameters : List String) (body : Block) (machine : Machine) :
    newFunction parameters body machine =
      .ok (.function (.user machine.created parameters body))
        { machine with created := machine.created + 1 } := rfl

theorem release_ite (frame : Nat) (machine : Machine) :
    release frame machine =
      if frame + 1 = machine.environment.depth then
        .ok () { machine with environment := machine.environment.pop frame }
      else .error .stuck machine := by
  change (if frame + 1 = machine.environment.depth then
    (set { machine with environment := machine.environment.pop frame } : Eval Unit)
    else throw .stuck) machine = _
  split <;> rfl

theorem release_run {frame : Nat} {machine : Machine}
    (hlast : frame + 1 = machine.environment.depth) :
    release frame machine =
      .ok () { machine with environment := machine.environment.pop frame } := by
  rw [release_ite, if_pos hlast]

theorem release_run_of_not_last {frame : Nat} {machine : Machine}
    (hlast : frame + 1 ≠ machine.environment.depth) :
    release frame machine = .error .stuck machine := by
  rw [release_ite, if_neg hlast]

theorem catchReturn_run (body : EStateM Signal σ Value) (state : σ) :
    catchReturn body state =
      match body state with
      | .error (.returned value) after => .ok value after
      | other => other := by
  rw [catchReturn, tryCatch_run]
  cases body state with
  | ok value after => rfl
  | error signal after => cases signal <;> rfl

theorem attempt_run (body : EStateM Signal σ α) (state : σ) :
    attempt body state =
      match body state with
      | .ok value after => .ok (some value) after
      | .error (.returned _) after => .ok none after
      | .error (.failed _) after => .ok none after
      | .error signal after => .error signal after := by
  rw [attempt, tryCatch_run, map_eq_pure_bind, bind_run]
  cases body state with
  | ok value after => rfl
  | error signal after => cases signal <;> rfl

-- The machine on which the body of a call starts: a frame is new, under `parent`.
def entered (parent : Nat) (machine : Machine) : Machine :=
  { machine with environment := (machine.environment.push parent).1 }

theorem inFrame_ite (parent : Nat) (body : Nat → Eval α) (machine : Machine) :
    inFrame parent body machine =
      if parent < machine.environment.depth then
        (try body machine.environment.depth
        finally release machine.environment.depth : Eval α) (entered parent machine)
      else .error .stuck machine := by
  change (if parent < machine.environment.depth then (do
      set (entered parent machine)
      try body machine.environment.depth
      finally release machine.environment.depth : Eval α)
    else throw .stuck) machine = _
  split <;> rfl

-- A call whose body leaves the frame of the call the last one: the frame is released after
-- the body, and what comes of the body comes of the call.
theorem inFrame_run {parent : Nat} (body : Nat → Eval α) {machine : Machine}
    (hlive : parent < machine.environment.depth) :
    inFrame parent body machine =
      match body machine.environment.depth (entered parent machine) with
      | .ok value after =>
        match release machine.environment.depth after with
        | .ok () released => .ok value released
        | .error signal released => .error signal released
      | .error signal after =>
        match release machine.environment.depth after with
        | .ok () released => .error signal released
        | .error other released => .error other released := by
  rw [inFrame_ite, if_pos hlive]
  change (do
    let result ← tryFinally' (body machine.environment.depth)
      fun _ => release machine.environment.depth
    pure result.1 : Eval α) (entered parent machine) = _
  rw [bind_run]
  simp only [tryFinally']
  cases body machine.environment.depth (entered parent machine) with
  | ok value after =>
      dsimp only
      cases release machine.environment.depth after <;> rfl
  | error signal after =>
      dsimp only
      cases release machine.environment.depth after <;> rfl

theorem stateAfter_inFrame {parent : Nat} (body : Nat → Eval α) {machine : Machine}
    (hlive : parent < machine.environment.depth) :
    stateAfter (inFrame parent body) machine =
      stateAfter (release machine.environment.depth)
        (stateAfter (body machine.environment.depth) (entered parent machine)) := by
  simp only [stateAfter, inFrame_run body hlive]
  cases body machine.environment.depth (entered parent machine) with
  | ok value after =>
      dsimp only
      cases release machine.environment.depth after <;> rfl
  | error signal after =>
      dsimp only
      cases release machine.environment.depth after <;> rfl

theorem inFrame_run_of_dead {parent : Nat} (body : Nat → Eval α) {machine : Machine}
    (hdead : ¬parent < machine.environment.depth) :
    inFrame parent body machine = .error .stuck machine := by
  rw [inFrame_ite, if_neg hdead]

end Capuchin.Eval
