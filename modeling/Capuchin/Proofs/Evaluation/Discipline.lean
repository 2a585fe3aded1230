import Capuchin.Evaluation.Session
import Capuchin.Proofs.Evaluation.Traversal
import Capuchin.Proofs.Scope.Frames
import Mathlib

namespace Capuchin

open Eval Environment

-- No access to a frame or an argument failed, and no frame was released out of order.
abbrev notStuck (signal : Signal) : Prop := signal ≠ .stuck

-- A body that changes no frame but the one of its call leaves nothing behind in the environment.
theorem inFrame_run_of_onlyChanged {frame : Nat} {body : Nat → Eval α} {machine : Machine}
    (hlive : frame < machine.environment.depth)
    (hbody : OnlyChanged machine.environment.depth (machine.environment.push frame).1
      (stateAfter (body machine.environment.depth) (entered frame machine)).environment) :
    inFrame frame body machine =
      match body machine.environment.depth (entered frame machine) with
      | .ok value after => .ok value { after with environment := machine.environment }
      | .error signal after => .error signal { after with environment := machine.environment } := by
  have hpos : 0 < machine.environment.depth := by omega
  rw [inFrame_run body hlive]
  unfold stateAfter at hbody
  cases hr : body machine.environment.depth (entered frame machine) with
  | ok value after =>
      rw [hr] at hbody
      have hlast := hbody.depth.trans (depth_push _ _)
      simp only [release_run hlast.symm, pop_of_onlyChanged_push hpos hbody]
  | error signal after =>
      rw [hr] at hbody
      have hlast := hbody.depth.trans (depth_push _ _)
      simp only [release_run hlast.symm, pop_of_onlyChanged_push hpos hbody]

-- There is no cause to get stuck in a live frame of a well-formed environment. In any other one
-- it has to be among the signals.
def Grounded (S : Signal → Prop) (environment : Environment) (frame : Nat) : Prop :=
  S .stuck ∨ environment.WellFormed ∧ frame < environment.depth

section Grounded

variable {S : Signal → Prop} {environment : Environment} {frame : Nat}

theorem Grounded.of_onlyChanged {after : Environment} (h : Grounded S environment frame)
    (hc : OnlyChanged frame environment after) : Grounded S after frame := by
  obtain hs | ⟨hw, hlive⟩ := h
  · exact .inl hs
  · exact .inr ⟨hc.wellFormed hw, hc.depth ▸ hlive⟩

theorem Grounded.push (h : Grounded S environment frame) (hlive : frame < environment.depth) :
    Grounded S (environment.push frame).1 environment.depth := by
  obtain hs | ⟨hw, -⟩ := h
  · exact .inl hs
  · exact .inr ⟨hw.push hlive, by simp⟩

-- A call gives back the environment it was made in, whatever its body did to the frame of the
-- call.
theorem inFrame_maintains (h : Grounded S environment frame) {body : Nat → Eval α}
    (hb : frame < environment.depth → Maintains
      (fun machine => OnlyChanged environment.depth (environment.push frame).1 machine.environment)
      anything S (body environment.depth)) :
    Maintains (fun machine => machine.environment = environment) anything S
      (inFrame frame body) := by
  rintro machine rfl
  by_cases hlive : frame < machine.environment.depth
  · rw [inFrame_run_of_onlyChanged hlive ((hb hlive).stateAfter (.refl _ _))]
    have hend := hb hlive (entered frame machine) (.refl _ _)
    cases hr : body machine.environment.depth (entered frame machine) with
    | ok value after => exact ⟨rfl, trivial⟩
    | error signal after =>
        rw [hr] at hend
        exact ⟨rfl, hend.2⟩
  · rw [inFrame_run_of_dead body hlive]
    exact ⟨rfl, h.resolve_right fun hlast => hlive hlast.2⟩

-- If calls from a frame give back the environment, evaluation in the frame changes no other one.
theorem primitives_onlyChanged (hfailed : ∀ error, S (.failed error))
    (h : Grounded S environment frame) {call : Caller}
    (hcall : ∀ current : Environment, Grounded S current frame → ∀ function arguments,
      Maintains (fun machine => machine.environment = current) anything S
        (call function arguments frame)) :
    Primitives (fun machine => OnlyChanged frame environment machine.environment) S call frame where
  failed := hfailed
  lookup := by
    intro name machine hi
    rw [lookup_run]
    cases hg : machine.environment.get frame name with
    | bound value => exact ⟨hi, trivial⟩
    | unbound => exact ⟨hi, hfailed _⟩
    | broken =>
        obtain hs | ⟨hw, hlive⟩ := h.of_onlyChanged hi
        · exact ⟨hi, hs⟩
        · exact absurd hg (hw.get_ne_broken frame hlive name)
  bindName := by
    intro name value machine hi
    by_cases hlive : frame < machine.environment.depth
    · rw [bindName_run name value hlive]
      exact ⟨hi.trans (onlyChanged_set _ _ _ _), trivial⟩
    · rw [bindName_run_of_dead name value hlive]
      exact ⟨hi, (h.of_onlyChanged hi).resolve_right fun hlast => hlive hlast.2⟩
  newFunction := fun parameters body machine hi => ⟨hi, trivial⟩
  write := fun text machine hi => ⟨hi, trivial⟩
  readLine := by
    intro machine hi
    rw [readLine_run]
    cases machine.console.readLine? with
    | none => exact ⟨hi, hfailed _⟩
    | some line => exact ⟨hi, trivial⟩
  call := fun function arguments =>
    .of_view fun current hi => hcall current (h.of_onlyChanged hi) function arguments

theorem callFunction_restores (hfailed : ∀ error, S (.failed error)) (hdeep : S .tooDeep)
    (depth : Nat) (h : Grounded S environment frame) (function : Function)
    (arguments : List Value) :
    Maintains (fun machine => machine.environment = environment) anything S
      (callFunction depth function arguments frame) := by
  induction depth generalizing environment frame function arguments with
  | zero => exact .throw hdeep
  | succ depth ih =>
      rw [callFunction]
      apply inFrame_maintains h
      intro hlive
      apply Function.invoke_maintains
      apply primitives_onlyChanged hfailed (h.push hlive)
      intro current hc function arguments
      exact ih hc function arguments

theorem callFunction_onlyChanged (hfailed : ∀ error, S (.failed error)) (hdeep : S .tooDeep)
    (depth : Nat) (h : Grounded S environment frame) :
    Primitives (fun machine => OnlyChanged frame environment machine.environment) S
      (callFunction depth) frame :=
  primitives_onlyChanged hfailed h fun _ hc function arguments =>
    callFunction_restores hfailed hdeep depth hc function arguments

end Grounded

theorem callFunction_maintains (depth : Nat) {environment : Environment}
    (hw : environment.WellFormed) {caller : Nat} (hlive : caller < environment.depth)
    (function : Function) (arguments : List Value) :
    Maintains (fun machine => machine.environment = environment) anything notStuck
      (callFunction depth function arguments caller) :=
  callFunction_restores (by simp) (by simp) depth (.inr ⟨hw, hlive⟩) function arguments

theorem callFunction_primitives (depth : Nat) {environment : Environment}
    (hw : environment.WellFormed) {frame : Nat} (hlive : frame < environment.depth) :
    Primitives (fun machine => OnlyChanged frame environment machine.environment) notStuck
      (callFunction depth) frame :=
  callFunction_onlyChanged (by simp) (by simp) depth (.inr ⟨hw, hlive⟩)

section Endless

variable {name : String} {machine : Machine} {frame number : Nat} {body rest : Block}

-- A function that begins with a call of itself uses up any limit, and leaves no other trace.
theorem callFunction_endless (depth : Nat) (hlive : frame < machine.environment.depth)
    (hbody : body = .expression (.call (.identifier name) []) :: rest)
    (hself : machine.environment.get frame name = .bound (.function (.user number [] body))) :
    callFunction depth (.user number [] body) [] frame machine = .error .tooDeep machine := by
  induction depth generalizing machine frame with
  | zero => rfl
  | succ depth ih =>
      have hinner : (entered frame machine).environment.get machine.environment.depth name =
          .bound (.function (.user number [] body)) := (get_push_depth hlive name).trans hself
      have hcall := ih (by simp [entered]) hinner
      have hblock : evalBlock (callFunction depth) machine.environment.depth .null body
          (entered frame machine) = .error .tooDeep (entered frame machine) := by
        rw [hbody] at hinner hcall ⊢
        rw [evalBlock, bind_run, Stmt.eval, Expr.eval, bind_run, Expr.eval, lookup_run, hinner]
        simp only [evalArguments, pure_bind, hcall]
      have hinvoke : Function.invoke (callFunction depth) machine.environment.depth []
          (.user number [] body) (entered frame machine) =
            .error .tooDeep (entered frame machine) := by
        change catchReturn _ (entered frame machine) = _
        rw [catchReturn_run, hblock]
      have hkeep : OnlyChanged machine.environment.depth (machine.environment.push frame).1
          (stateAfter (Function.invoke (callFunction depth) machine.environment.depth []
            (.user number [] body)) (entered frame machine)).environment := by
        rw [stateAfter, hinvoke]
        exact .refl _ _
      rw [callFunction]
      dsimp only
      rw [inFrame_run_of_onlyChanged hlive hkeep, hinvoke]
      rfl

-- Such a function is defined and called.
def Program.endless (name : String) : Program :=
  [.define name [] [.expression (.call (.identifier name) [])],
    .expression (.call (.identifier name) [])]

-- The name that an endless program defines and calls.
def Program.endlessName? : Program → Option String
  | [.define a [] [.expression (.call (.identifier b) [])],
      .expression (.call (.identifier c) [])] => if a = b ∧ b = c then some c else none
  | _ => none

theorem Program.eq_endless {program : Program} (h : program.endlessName? = some name) :
    program = endless name := by
  unfold endlessName? at h
  split at h
  case h_1 a b c =>
    obtain ⟨⟨rfl, rfl⟩, rfl⟩ : (a = b ∧ b = c) ∧ c = name := by simpa using h
    rfl
  case h_2 => cases h

-- No limit is enough for the program. It reads and writes nothing.
theorem Program.eval_endless (depth : Nat) (hlive : root < machine.environment.depth)
    (name : String) :
    ∃ after : Machine, after.console = machine.console ∧
      (endless name).eval depth machine = .error .tooDeep after := by
  let function : Function := .user machine.created [] [.expression (.call (.identifier name) [])]
  let defined : Machine := { machine with
    environment := machine.environment.set root name (.function function)
    created := machine.created + 1 }
  have hself : defined.environment.get root name = .bound (.function function) := by
    rw [get_set_self hlive, if_pos rfl]
  have hdefine : Stmt.eval (callFunction depth) root
      (.define name [] [.expression (.call (.identifier name) [])]) machine =
        .ok (.function function) defined := by
    have hcapture : capture [] [.expression (.call (.identifier name) [])] machine =
        .ok (.function function) { machine with created := machine.created + 1 } := rfl
    have hbind : bindName root name (.function function)
        { machine with created := machine.created + 1 } = .ok () defined := bindName_run _ _ hlive
    rw [Stmt.eval, bind_run, hcapture]
    dsimp only
    rw [bind_run, hbind]
    rfl
  refine ⟨defined, rfl, ?_⟩
  have hcall : callFunction depth function [] root defined = .error .tooDeep defined :=
    callFunction_endless depth (by simpa [defined] using hlive) rfl hself
  rw [Program.eval, catchReturn_run, Program.visit, endless, evalBlock, bind_run, hdefine]
  dsimp only
  rw [evalBlock, bind_run, Stmt.eval, Expr.eval, bind_run, Expr.eval, lookup_run, hself]
  simp only [evalArguments, pure_bind, hcall]

end Endless

-- The machines of a session: from the two initial ones on, programs are evaluated or visited
-- in the root frame and functions are called from it, each with any bound on nested calls.
inductive Machine.Reachable : Machine → Prop
  | bare (input : List String) : Reachable (.bare input)
  | fresh (input : List String) : Reachable (.fresh input)
  | evaluate (depth : Nat) (program : Program) (h : Reachable machine) :
      Reachable (machine.perform (program.eval depth)).2
  | visit (depth : Nat) (program : Program) (h : Reachable machine) :
      Reachable (machine.perform (program.visit depth)).2
  | call (depth : Nat) (function : Function) (arguments : List Value) (h : Reachable machine) :
      Reachable (machine.perform (callFunction depth function arguments Environment.root)).2

theorem Machine.perform_snd (machine : Machine) (action : Eval Value) :
    (machine.perform action).2 = stateAfter action machine := by
  unfold perform stateAfter EStateM.run
  cases action machine <;> rfl

theorem Environment.onlyChanged_install (environment : Environment) (frame : Nat) :
    OnlyChanged frame environment (environment.install frame) := by
  unfold install
  generalize Builtin.all = builtins
  induction builtins generalizing environment with
  | nil => exact .refl frame environment
  | cons builtin rest ih => exact (onlyChanged_set environment frame _ _).trans (ih _)

theorem Program.visit_maintains (depth : Nat) {environment : Environment}
    (hw : environment.WellFormed) (program : Program) :
    Maintains (fun machine => OnlyChanged root environment machine.environment) anything
      notStuck (program.visit depth) :=
  evalBlock_maintains (callFunction_primitives depth hw hw.depth_pos) (by simp) .null program

theorem Program.eval_onlyChanged {S : Signal → Prop} (hfailed : ∀ error, S (.failed error))
    (hdeep : S .tooDeep) (depth : Nat) {environment : Environment} (hw : environment.WellFormed)
    (program : Program) :
    Maintains (fun machine => OnlyChanged root environment machine.environment) anything S
      (program.eval depth) :=
  (evalBlock_maintains
    (callFunction_onlyChanged hfailed hdeep depth (.inr ⟨hw, hw.depth_pos⟩)).orReturned
    (fun _ => trivial) .null program).catchReturn

theorem Program.eval_maintains (depth : Nat) {environment : Environment}
    (hw : environment.WellFormed) (program : Program) :
    Maintains (fun machine => OnlyChanged root environment machine.environment) anything
      notStuck (program.eval depth) :=
  Program.eval_onlyChanged (by simp) (by simp) depth hw program

-- A program that comes to no value fails or nests its calls too deeply.
theorem Program.eval_signal (depth : Nat) {machine : Machine}
    (hw : machine.environment.WellFormed) (program : Program) {signal : Signal}
    (hs : outcome (program.eval depth) machine = .error signal) :
    (∃ error, signal = .failed error) ∨ signal = .tooDeep := by
  have hends : Maintains (fun after => OnlyChanged root machine.environment after.environment)
      anything (fun signal => (∃ error, signal = .failed error) ∨ signal = .tooDeep)
      (program.eval depth) :=
    Program.eval_onlyChanged (fun error => .inl ⟨error, rfl⟩) (.inr rfl) depth hw program
  exact hends.signal (.refl _ _) hs

theorem Machine.Reachable.wellFormed_and_depth {machine : Machine} (h : Reachable machine) :
    machine.environment.WellFormed ∧ machine.environment.depth = 1 := by
  induction h with
  | bare input => exact ⟨empty_wellFormed, rfl⟩
  | fresh input =>
      have hi := onlyChanged_install .empty root
      exact ⟨hi.wellFormed empty_wellFormed, hi.depth⟩
  | evaluate depth program h ih =>
      obtain ⟨hw, hd⟩ := ih
      have hi := (Program.eval_maintains depth hw program).stateAfter (.refl _ _)
      rw [perform_snd]
      exact ⟨hi.wellFormed hw, hi.depth.trans hd⟩
  | visit depth program h ih =>
      obtain ⟨hw, hd⟩ := ih
      have hi := (Program.visit_maintains depth hw program).stateAfter (.refl _ _)
      rw [perform_snd]
      exact ⟨hi.wellFormed hw, hi.depth.trans hd⟩
  | call depth function arguments h ih =>
      obtain ⟨hw, hd⟩ := ih
      have hi := (callFunction_maintains depth hw hw.depth_pos function arguments).stateAfter rfl
      rw [perform_snd, root, hi]
      exact ⟨hw, hd⟩

-- A run in `frame` changes nothing of the environment but the bindings of that frame, and it
-- never gets stuck.
def KeepsFrames (frame : Nat) (machine : Machine) (x : Eval α) : Prop :=
  OnlyChanged frame machine.environment (stateAfter x machine).environment ∧
    outcome x machine ≠ .error .stuck

theorem keepsFrames_of_maintains {frame : Nat} {machine : Machine} {x : Eval α}
    (h : Maintains (fun after => OnlyChanged frame machine.environment after.environment)
      anything notStuck x) : KeepsFrames frame machine x :=
  ⟨h.stateAfter (.refl _ _), fun hs => h.signal (.refl _ _) hs rfl⟩

-- Nothing but the bindings of its own frame changes in evaluation, and a call changes nothing.
-- A failing release stops evaluation with `stuck`, which nothing catches, so none has failed;
-- and when the body of a call is done, the frame of the call is the last live one. The bound on
-- nested calls is arbitrary, and the runs it cuts off keep to this as well.
theorem evaluation_keepsFrames :
    (∀ (depth : Nat) (machine : Machine) (frame : Nat), machine.environment.WellFormed →
      frame < machine.environment.depth →
      (∀ slot (expr : Expr),
        KeepsFrames frame machine (expr.eval (callFunction depth) frame slot)) ∧
      (∀ stmt : Stmt, KeepsFrames frame machine (stmt.eval (callFunction depth) frame)) ∧
      (∀ last block, KeepsFrames frame machine (evalBlock (callFunction depth) frame last block)) ∧
      (∀ function arguments,
        (stateAfter (callFunction depth function arguments frame) machine).environment =
            machine.environment ∧
          outcome (callFunction depth function arguments frame) machine ≠ .error .stuck ∧
          (stateAfter (function.invoke (callFunction depth) machine.environment.depth arguments)
            (entered frame machine)).environment.depth = machine.environment.depth + 1)) ∧
    (∀ machine : Machine, machine.Reachable → machine.environment.depth = 1) := by
  refine ⟨?_, fun machine h => h.wellFormed_and_depth.2⟩
  intro depth machine frame hw hlive
  have hp := callFunction_primitives depth hw hlive
  refine ⟨?_, ?_, ?_, ?_⟩
  · intro slot expr
    exact keepsFrames_of_maintains (expr.eval_maintains hp slot)
  · intro stmt
    exact keepsFrames_of_maintains (stmt.eval_maintains hp (by simp))
  · intro last block
    exact keepsFrames_of_maintains (evalBlock_maintains hp (by simp) last block)
  · intro function arguments
    have hc := callFunction_maintains depth hw hlive function arguments
    have hpushed : machine.environment.depth < (machine.environment.push frame).1.depth := by
      simp
    have hbody := Function.invoke_maintains (callFunction_primitives depth (hw.push hlive) hpushed)
      function arguments
    refine ⟨hc.stateAfter rfl, fun hs => hc.signal rfl hs rfl, ?_⟩
    have hafter : OnlyChanged _ _
        (stateAfter (function.invoke (callFunction depth) machine.environment.depth arguments)
          (entered frame machine)).environment := hbody.stateAfter (.refl _ _)
    exact hafter.depth.trans (depth_push _ _)

-- A binding made in a frame that is not the root.
theorem bind_keepsFrames :
    let machine := entered 0 (Machine.bare [])
    machine.environment.WellFormed ∧ 1 < machine.environment.depth ∧
      KeepsFrames 1 machine (Stmt.eval (callFunction 1) 1 (.bind (some "x") (.integer 1))) ∧
      (Machine.bare []).Reachable ∧ (Machine.bare []).environment.depth = 1 := by
  intro machine
  have hw : machine.environment.WellFormed := empty_wellFormed.push Nat.zero_lt_one
  have hr : (Machine.bare []).Reachable := .bare []
  exact ⟨hw, Nat.one_lt_two, (evaluation_keepsFrames.1 1 machine 1 hw Nat.one_lt_two).2.1 _, hr,
    evaluation_keepsFrames.2 _ hr⟩

end Capuchin
