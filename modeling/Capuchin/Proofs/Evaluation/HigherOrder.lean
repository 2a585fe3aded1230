import Capuchin.Proofs.Evaluation.FlatAgreement
import Mathlib

-- The builtins that call back do so from a frame of their own, which no function can tell from
-- the frame that they are called from.
namespace Capuchin

open Eval Environment

-- The second machine has the environment, and the first one has an empty frame more in it, under
-- `frame`.
structure EnteredFrom (environment : Environment) (frame : Nat) (inside outside : Machine) :
    Prop where
  below : outside.environment = environment
  above : inside = entered frame outside

section

variable {frame : Nat} {machine : Machine}

theorem exists_mirrors (hw : machine.environment.WellFormed)
    (hlive : frame < machine.environment.depth) : ∃ state, Mirrors frame machine state := by
  let names (name : String) : Option Value :=
    match machine.environment.get frame name with
    | .bound value => some value
    | _ => none
  refine ⟨{ names, console := machine.console, created := machine.created }, hw, hlive,
    fun name => ?_, rfl, rfl⟩
  have hfound := hw.get_ne_broken frame hlive name
  simp only [Flat.State.find, names]
  cases hget : machine.environment.get frame name with
  | bound value => rfl
  | unbound => rfl
  | broken => exact absurd hget hfound

theorem eq_entered_of_mirrors {inner : Nat} {inside outside : Machine} {state : Flat.State}
    (hin : Mirrors inner inside state) (hout : Mirrors frame outside state)
    (henvironment : inside.environment = (outside.environment.push frame).1) :
    inside = entered frame outside := by
  have hconsole : inside.console = outside.console := hin.console.symm.trans hout.console
  have hcreated : inside.created = outside.created := hin.created.symm.trans hout.created
  rw [entered, ← henvironment, ← hconsole, ← hcreated]

-- A call from the empty frame is as good as one from the frame under it: they see the same names,
-- and each gives back the environment it was made in.
theorem callFunction_enteredFrom {environment : Environment} (hw : environment.WellFormed)
    (hlive : frame < environment.depth) (depth : Nat) (function : Function)
    (arguments : List Value) :
    Simulates (EnteredFrom environment frame)
      (callFunction depth function arguments environment.depth)
      (callFunction depth function arguments frame) := by
  rintro _ machine ⟨rfl, rfl⟩
  obtain ⟨state, hstate⟩ := exists_mirrors hw hlive
  have hinner := callFunction_simulates depth function arguments _ _ hstate.entered
  have houter := callFunction_simulates depth function arguments _ _ hstate
  have hpushed : machine.environment.depth < (machine.environment.push frame).1.depth := by simp
  have hinside := callFunction_maintains depth (hw.push hlive) hpushed function arguments
    (entered frame machine) rfl
  have houtside := callFunction_maintains depth hw hlive function arguments machine rfl
  generalize callFunction depth function arguments machine.environment.depth
    (entered frame machine) = run at hinner hinside ⊢
  generalize callFunction depth function arguments frame machine = other at houter houtside ⊢
  generalize Flat.callFunction depth function arguments state = flatRun at hinner houter
  cases hinner with
  | ok value hin =>
      cases houter with
      | ok _ hout =>
          refine .ok value ⟨houtside.1, eq_entered_of_mirrors hin hout ?_⟩
          rw [hinside.1, houtside.1]
  | error signal hin =>
      cases houter with
      | error _ hout =>
          refine .error signal ⟨houtside.1, eq_entered_of_mirrors hin hout ?_⟩
          rw [hinside.1, houtside.1]

theorem release_entered (hlive : frame < machine.environment.depth) :
    release machine.environment.depth (entered frame machine) = .ok () machine := by
  have hlast : machine.environment.depth + 1 = (entered frame machine).environment.depth := by
    simp [entered]
  have hback : (entered frame machine).environment.pop machine.environment.depth =
      machine.environment := pop_of_onlyChanged_push (by omega) (.refl _ _)
  rw [release_run hlast, hback]
  rfl

-- What runs in the empty frame as it would outside is as good as run outside.
theorem inFrame_eq_of_simulates {body : Nat → Eval α} {x : Eval α}
    (hlive : frame < machine.environment.depth)
    (h : Simulates (EnteredFrom machine.environment frame) (body machine.environment.depth) x) :
    inFrame frame body machine = x machine := by
  have hagree := h (entered frame machine) machine ⟨rfl, rfl⟩
  rw [inFrame_run body hlive]
  generalize body machine.environment.depth (entered frame machine) = run at hagree ⊢
  generalize x machine = other at hagree ⊢
  cases hagree with
  | @ok _ after value hr =>
      obtain ⟨hbelow, rfl⟩ := hr
      have hafter : frame < after.environment.depth := hbelow ▸ hlive
      simp only [← hbelow, release_entered hafter]
  | @error _ after signal hr =>
      obtain ⟨hbelow, rfl⟩ := hr
      have hafter : frame < after.environment.depth := hbelow ▸ hlive
      simp only [← hbelow, release_entered hafter]

end

-- `x` nests its calls one deeper than `y`. Where the bounds allow for that they have one run, and
-- they finish together. The environment is afterwards what it was.
structure RunsLike (machine : Machine) (x y : Nat → Eval Value) : Prop where
  run : ∀ depth, x (depth + 1) machine = y depth machine
  finishes : Finishes x machine ↔ Finishes y machine
  environment : ∀ depth, (stateAfter (x depth) machine).environment = machine.environment

section

variable {frame : Nat} {machine : Machine}

theorem runsLike_of_simulates {builtin : Builtin} {arguments : List Value}
    {y : Nat → Eval Value} (hw : machine.environment.WellFormed)
    (hlive : frame < machine.environment.depth)
    (h : ∀ depth, Simulates (EnteredFrom machine.environment frame)
      (Function.invoke (callFunction depth) machine.environment.depth arguments
        (.builtin builtin)) (y depth)) :
    RunsLike machine (fun depth => callFunction depth (.builtin builtin) arguments frame) y := by
  have hrun : ∀ depth, callFunction (depth + 1) (.builtin builtin) arguments frame machine =
      y depth machine := by
    intro depth
    rw [callFunction]
    exact inFrame_eq_of_simulates hlive (h depth)
  have houtcome : ∀ depth, outcome (callFunction (depth + 1) (.builtin builtin) arguments frame)
      machine = outcome (y depth) machine := by
    intro depth
    rw [outcome, outcome, hrun depth]
  refine ⟨hrun, ⟨?_, ?_⟩, fun depth => ?_⟩
  · rintro ⟨depth, hdepth⟩
    cases depth with
    | zero => exact absurd rfl hdepth
    | succ depth => exact ⟨depth, houtcome depth ▸ hdepth⟩
  · rintro ⟨depth, hdepth⟩
    exact ⟨depth + 1, (houtcome depth).symm ▸ hdepth⟩
  · exact (callFunction_maintains depth hw hlive (.builtin builtin) arguments).stateAfter rfl

end

-- `map`, `filter` and `reduce` come to the calls made one after the other in the frame itself. The
-- first of them that fails ends them all.
theorem higherOrder_runsLike (machine : Machine) (frame : Nat)
    (hw : machine.environment.WellFormed) (hlive : frame < machine.environment.depth)
    (elements : List Value) (function : Function) (start : Value) :
    RunsLike machine
      (fun depth => callFunction depth (.builtin .map) [.array elements, .function function] frame)
      (fun depth => do
        let results ← elements.mapM fun element => callFunction depth function [element] frame
        return .array results) ∧
    RunsLike machine
      (fun depth =>
        callFunction depth (.builtin .filter) [.array elements, .function function] frame)
      (fun depth => do
        let results ← elements.mapM fun element => callFunction depth function [element] frame
        return .array (Flat.kept elements results)) ∧
    RunsLike machine
      (fun depth =>
        callFunction depth (.builtin .reduce) [.array elements, .function function, start] frame)
      (fun depth => elements.foldlM
        (fun before element => callFunction depth function [before, element] frame) start) := by
  have hcall := callFunction_enteredFrom hw hlive
  refine ⟨runsLike_of_simulates hw hlive fun depth => ?_,
    runsLike_of_simulates hw hlive fun depth => ?_, runsLike_of_simulates hw hlive fun depth => ?_⟩
  · exact (Builtin.mapped_simulates (fun element => hcall depth function [element]) elements).bind
      fun results => .pure _
  · have hkept := Builtin.filtered_simulates (fun element => hcall depth function [element]) elements
    have hmap : (do
        let results ← elements.mapM fun element => callFunction depth function [element] frame
        return Value.array (Flat.kept elements results) : Eval Value) = (do
          let kept ← Flat.kept elements <$>
            elements.mapM fun element => callFunction depth function [element] frame
          return .array kept) := by
      rw [bind_map_left]
    rw [hmap]
    exact hkept.bind fun kept => .pure _
  · exact Builtin.reduced_simulates (fun before element => hcall depth function [before, element])
      start elements

-- `fn(x) { 1 / x; }` fails for the second of three elements, in a frame that is not the root.
theorem higherOrder_runsLike_failing :
    let machine := entered 0 (Machine.bare [])
    let function : Function :=
      .user 0 ["x"] [.expression (.binary .div (.integer 1) (.identifier "x"))]
    let elements : List Value := [.integer 1, .integer 0, .null]
    machine.environment.WellFormed ∧ 1 < machine.environment.depth ∧
      outcome (callFunction 2 (.builtin .map) [.array elements, .function function] 1) machine =
        .error (.failed .divisionByZero) ∧
      RunsLike machine
        (fun depth => callFunction depth (.builtin .map) [.array elements, .function function] 1)
        (fun depth => do
          let results ← elements.mapM fun element => callFunction depth function [element] 1
          return .array results) := by
  intro machine function elements
  have hw : machine.environment.WellFormed := empty_wellFormed.push Nat.zero_lt_one
  exact ⟨hw, Nat.one_lt_two, by cbv,
    (higherOrder_runsLike machine 1 hw Nat.one_lt_two elements function .null).1⟩

end Capuchin
