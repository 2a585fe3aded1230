import Capuchin.Evaluation.Session
import Capuchin.Proofs.Evaluation.Carrying
import Capuchin.Proofs.Scope.Frames
import Capuchin.Proofs.Syntax.Filled
import Mathlib

-- What evaluation can miss in sources that are read without objections.
namespace Capuchin

open Eval

variable {allowed : Slot → Prop}

-- The values bound in all frames are carried, those that no search reaches as well.
def Environment.Carrying (allowed : Slot → Prop) (environment : Environment) : Prop :=
  ∀ (i : Nat) (frame : Frame), environment.frames[i]? = some frame →
    ∀ binding ∈ frame.bindings, Carried allowed binding.2

namespace Environment.Carrying

variable {environment : Environment}

theorem empty : Environment.empty.Carrying allowed := by
  intro i frame hi
  obtain ⟨hlt, rfl⟩ := Array.getElem?_eq_some_iff.mp hi
  simp [Environment.empty]

theorem push (h : environment.Carrying allowed) (parent : Nat) :
    (environment.push parent).1.Carrying allowed := by
  intro i frame hi
  have hlt := (Array.getElem?_eq_some_iff.mp hi).1
  change i < (environment.push parent).1.depth at hlt
  rw [depth_push] at hlt
  by_cases hnew : i = environment.depth
  · subst hnew
    rw [getElem?_push_depth] at hi
    cases hi
    simp
  · rw [getElem?_push_of_lt _ _ _ (by omega)] at hi
    exact h i frame hi

theorem pop (h : environment.Carrying allowed) (frame : Nat) :
    (environment.pop frame).Carrying allowed := by
  intro i f hi
  simp only [Environment.pop, Array.take_eq_extract, Array.getElem?_extract, Nat.zero_add,
    Option.ite_none_right_eq_some] at hi
  exact h i f hi.2

theorem set (h : environment.Carrying allowed) (frame : Nat) (name : String) {value : Value}
    (hv : Carried allowed value) : (environment.set frame name value).Carrying allowed := by
  intro i f hi
  rw [getElem?_set] at hi
  by_cases hframe : i = frame
  · rw [if_pos hframe] at hi
    obtain ⟨old, hold, rfl⟩ := Option.map_eq_some_iff.mp hi
    intro binding hb
    rcases List.mem_cons.mp hb with rfl | hrest
    · exact hv
    · exact h i old hold binding (List.mem_of_mem_filter hrest)
  · rw [if_neg hframe] at hi
    exact h i f hi

theorem get (h : environment.Carrying allowed) {frame : Nat} {name : String} {value : Value}
    (hg : environment.get frame name = .bound value) : Carried allowed value := by
  fun_induction environment.get frame name with
  | case1 | case3 | case5 => simp at hg
  | case2 frame f hf found hfound =>
      obtain rfl : found = value := by simpa using hg
      obtain ⟨before, after, hsplit, _⟩ := List.lookup_eq_some_iff.mp hfound
      exact h frame f hf (name, found) (by simp [hsplit])
  | case4 frame f hf hfound parent hparent hlt ih => exact ih hg

theorem install (h : environment.Carrying allowed) (frame : Nat) :
    (environment.install frame).Carrying allowed := by
  unfold Environment.install
  generalize Builtin.all = builtins
  induction builtins generalizing environment with
  | nil => exact h
  | cons builtin rest ih => exact ih (h.set frame builtin.name confined_nil)

end Environment.Carrying

-- What an evaluation may end with whose functions lack what is allowed only.
def Signal.Allowed (allowed : Slot → Prop) : Signal → Prop
  | .returned value => Carried allowed value
  | .failed error => error.Allowed allowed
  | _ => True

-- No function in reach of the machine lacks what is not allowed.
abbrev Machine.Carrying (allowed : Slot → Prop) (machine : Machine) : Prop :=
  machine.environment.Carrying allowed

abbrev Eval.Keeps (allowed : Slot → Prop) (V : α → Prop) (x : Eval α) : Prop :=
  Maintains (Machine.Carrying allowed) V (Signal.Allowed allowed) x

namespace Eval.Keeps

theorem lookup (frame : Nat) (name : String) :
    Keeps allowed (Carried allowed) (lookup frame name) := by
  intro machine hi
  rw [lookup_run]
  cases hg : machine.environment.get frame name with
  | bound value => exact ⟨hi, hi.get hg⟩
  | unbound => exact ⟨hi, fun _ heq => by simp at heq⟩
  | broken => exact ⟨hi, trivial⟩

theorem bindName (frame : Nat) (name : String) {value : Value} (hv : Carried allowed value) :
    Keeps allowed anything (bindName frame name value) := by
  intro machine hi
  by_cases hlive : frame < machine.environment.depth
  · rw [bindName_run name value hlive]
    exact ⟨hi.set frame name hv, trivial⟩
  · rw [bindName_run_of_dead name value hlive]
    exact ⟨hi, trivial⟩

theorem newFunction (parameters : List String) {body : Block}
    (hb : Confined allowed (stmtGaps body)) :
    Keeps allowed (Carried allowed) (newFunction parameters body) := by
  intro machine hi
  rw [newFunction_run]
  exact ⟨hi, hb⟩

theorem write (text : String) : Keeps allowed anything (write text) := by
  intro machine hi
  rw [write_run]
  exact ⟨hi, trivial⟩

theorem readLine : Keeps allowed anything readLine := by
  intro machine hi
  rw [readLine_run]
  cases machine.console.readLine? with
  | none => exact ⟨hi, fun _ heq => by simp at heq⟩
  | some line => exact ⟨hi, trivial⟩

theorem release (frame : Nat) : Keeps allowed anything (release frame) := by
  intro machine hi
  by_cases hlast : frame + 1 = machine.environment.depth
  · rw [release_run hlast]
    exact ⟨hi.pop frame, trivial⟩
  · rw [release_run_of_not_last hlast]
    exact ⟨hi, trivial⟩

theorem inFrame {V : α → Prop} (parent : Nat) {body : Nat → Eval α}
    (hb : ∀ frame, Keeps allowed V (body frame)) : Keeps allowed V (inFrame parent body) :=
  Maintains.inFrame trivial parent (fun _ hi => hi.push parent) release hb

-- If calls keep to what is allowed, all that evaluation rests on does.
theorem carries {call : Caller} {frame : Nat}
    (hcall : ∀ function arguments, Confined allowed function.gaps →
      Confined allowed (valueGaps arguments) →
      Keeps allowed (Carried allowed) (call function arguments frame)) :
    Carries allowed (Machine.Carrying allowed) (Signal.Allowed allowed) call frame where
  failed := fun _ he => he
  lookup := lookup frame
  bindName := fun name _ hv => bindName frame name hv
  newFunction := fun parameters _ hb => newFunction parameters hb
  write := write
  readLine := readLine
  call := hcall

theorem callFunction (depth : Nat) {function : Function} (hf : Confined allowed function.gaps)
    {arguments : List Value} (ha : Confined allowed (valueGaps arguments)) (caller : Nat) :
    Keeps allowed (Carried allowed) (callFunction depth function arguments caller) := by
  induction depth generalizing function arguments caller with
  | zero => exact .throw trivial
  | succ depth ih =>
      rw [Capuchin.callFunction]
      apply inFrame
      intro frame
      apply Function.invoke_carries _ (fun _ hv => hv) hf ha
      exact carries fun _ _ hf ha => ih hf ha frame

theorem eval (depth : Nat) {program : Program} (hg : Confined allowed program.gaps) :
    Keeps allowed (Carried allowed) (program.eval depth) := by
  have hc : Carries allowed _ _ (Capuchin.callFunction depth) Environment.root :=
    carries fun _ _ hf ha => callFunction depth hf ha Environment.root
  exact (evalBlock_carries (hc.orReturned fun _ hv => hv) (fun _ hv => hv) confined_nil
    hg).catchReturn

end Eval.Keeps

theorem Machine.perform_keeps {machine : Machine} {action : Eval Value}
    (h : Keeps allowed (Carried allowed) action) (hi : machine.Carrying allowed) :
    (machine.perform action).2.Carrying allowed ∧
      ∀ signal, (machine.perform action).1 = .stopped signal → signal.Allowed allowed := by
  have hrun := h machine hi
  unfold perform EStateM.run
  cases hr : action machine with
  | ok value after =>
      rw [hr] at hrun
      exact ⟨hrun.1, fun _ heq => by simp at heq⟩
  | error signal after =>
      rw [hr] at hrun
      exact ⟨hrun.1, fun _ heq => Outcome.stopped.inj heq ▸ hrun.2⟩

-- The machines of a session: from the two initial ones on, sources are evaluated that are read
-- without objections, each with any bound on nested calls.
inductive Machine.Session : Machine → Prop
  | bare (input : List String) : Session (.bare input)
  | fresh (input : List String) : Session (.fresh input)
  | evaluate (depth : Nat) (hclean : (parse source).diagnostics = []) (h : Session machine) :
      Session (machine.perform ((parse source).program.eval depth)).2

theorem Machine.Session.carrying {machine : Machine} (h : machine.Session) :
    machine.Carrying (·.isOptional) := by
  induction h with
  | bare input => exact .empty
  | fresh input => exact Environment.Carrying.empty.install Environment.root
  | evaluate depth hclean h ih => exact (perform_keeps (.eval depth (parse_gaps hclean)) ih).1

-- The slot that an outcome finds missing.
def Outcome.missing? : Outcome → Option Slot
  | .stopped (.failed (.missing slot)) => some slot
  | _ => none

theorem Outcome.missing?_eq_some {outcome : Outcome} {slot : Slot} :
    outcome.missing? = some slot ↔ outcome = .stopped (.failed (.missing slot)) := by
  constructor
  · unfold missing?
    split
    · rintro ⟨⟩
      rfl
    · simp
  · rintro rfl
    rfl

-- A source without objections that lacks nothing but the slot.
def Slot.emptied : Slot → String
  | .expression => ";"
  | .returnValue => "return;"
  | .rightOperand => "1 + ;"
  | .operand => "-;"
  | .assignedValue => "x = ;"
  | _ => ""

theorem Slot.emptied_missing {slot : Slot} (h : slot.isOptional) :
    (parse slot.emptied).diagnostics = [] ∧ (parse slot.emptied).program.gaps = [slot] ∧
      ((Machine.bare []).perform ((parse slot.emptied).program.eval 0)).1.missing? = some slot := by
  cases slot with
  | expression | returnValue | rightOperand | operand | assignedValue => decide +kernel
  | _ => simp [isOptional] at h

-- The slots that a semicolon may stand for are those that can be missing in a source without
-- objections, and those that its evaluation can miss, whatever such sources have left behind.
theorem missing_iff_isOptional (slot : Slot) :
    ((∃ source, (parse source).diagnostics = [] ∧ slot ∈ (parse source).program.gaps) ↔
      slot.isOptional) ∧
    ((∃ (machine : Machine) (source : String) (depth : Nat), machine.Session ∧
        (parse source).diagnostics = [] ∧
        (machine.perform ((parse source).program.eval depth)).1 =
          .stopped (.failed (.missing slot))) ↔
      slot.isOptional) := by
  refine ⟨⟨?_, fun h => ?_⟩, ⟨?_, fun h => ?_⟩⟩
  · rintro ⟨source, hclean, hslot⟩
    exact parse_gaps hclean slot hslot
  · obtain ⟨hclean, hgaps, _⟩ := Slot.emptied_missing h
    exact ⟨slot.emptied, hclean, by simp [hgaps]⟩
  · rintro ⟨machine, source, depth, hsession, hclean, houtcome⟩
    have hkeeps := Machine.perform_keeps (.eval depth (parse_gaps hclean)) hsession.carrying
    exact hkeeps.2 _ houtcome slot rfl
  · obtain ⟨hclean, _, hmissing⟩ := Slot.emptied_missing h
    exact ⟨.bare [], slot.emptied, 0, .bare [], hclean, Outcome.missing?_eq_some.mp hmissing⟩

-- A function of an earlier source takes its gap along.
example :
    let first := parse "let f = fn() \x7b return; \x7d;"
    let machine := ((Machine.bare []).perform (first.program.eval 1)).2
    (machine.perform ((parse "f();").program.eval 1)).1.missing? = some .returnValue := by
  decide +kernel

end Capuchin
