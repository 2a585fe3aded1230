import Capuchin.Proofs.Evaluation.Building
import Mathlib

-- A run sees no more of the console than the lines it takes.
namespace Capuchin.Eval

-- What comes of a run, with another console behind it.
def atConsole (console : Console) :
    EStateM.Result Signal Machine α → EStateM.Result Signal Machine α
  | .ok value after => .ok value { after with console }
  | .error signal after => .error signal { after with console }

-- The run takes the lines `taken` off the input and adds `written` to the output. It would do the
-- same with any output before it and any lines behind the taken ones, except that a program that
-- asks for a line when none is left can tell that.
structure Uses (x : Eval α) (machine : Machine) (taken : List String) (written : String) :
    Prop where
  input : machine.console.input = taken ++ (stateAfter x machine).console.input
  output : (stateAfter x machine).console.output = machine.console.output ++ written
  elsewhere : ∀ left before, ((stateAfter x machine).console.input = [] → left = []) →
    x { machine with console := { input := taken ++ left, output := before } } =
      atConsole { input := left, output := before ++ written } (x machine)

namespace Uses

variable {x : Eval α} {machine after : Machine} {taken lines : List String}
  {written text : String}

-- What does the same at every console has not touched its own one.
theorem of_silent
    (h : ∀ console, x { machine with console } = atConsole console (x machine)) :
    Uses x machine [] "" := by
  have hsame : (stateAfter x machine).console = machine.console := by
    have hself : x machine = atConsole machine.console (x machine) := h machine.console
    unfold stateAfter
    rw [hself]
    cases x machine <;> rfl
  refine ⟨?_, ?_, ?_⟩
  · rw [hsame, List.nil_append]
  · rw [hsame, String.append_empty]
  · intro left before _
    rw [h, List.nil_append, String.append_empty]

theorem bind_ok {next : α → Eval β} {value : α} (hr : x machine = .ok value after)
    (hx : Uses x machine taken written) (hn : Uses (next value) after lines text) :
    Uses (x >>= next) machine (taken ++ lines) (written ++ text) := by
  have hwhole : (x >>= next) machine = next value after := by rw [bind_run, hr]
  have hfirst : stateAfter x machine = after := by rw [stateAfter, hr]
  have hlast : stateAfter (x >>= next) machine = stateAfter (next value) after := by
    rw [stateAfter, hwhole, stateAfter]
  refine ⟨?_, ?_, ?_⟩
  · rw [hlast, List.append_assoc, ← hn.input]
    exact hfirst ▸ hx.input
  · rw [hlast, hn.output, ← String.append_assoc, ← hx.output, hfirst]
  · intro left before hleft
    rw [hlast] at hleft
    have hmore : (stateAfter x machine).console.input = [] → lines ++ left = [] := by
      rw [hfirst, hn.input]
      intro hnil
      obtain ⟨hlines, hrest⟩ := List.append_eq_nil_iff.mp hnil
      rw [hlines, hleft hrest, List.nil_append]
    rw [List.append_assoc, bind_run, hx.elsewhere _ before hmore, hwhole, hr]
    exact (hn.elsewhere left _ hleft).trans (by rw [String.append_assoc])

theorem bind_error {next : α → Eval β} {signal : Signal} (hr : x machine = .error signal after)
    (hx : Uses x machine taken written) : Uses (x >>= next) machine taken written := by
  have hwhole : (x >>= next) machine = .error signal after := by rw [bind_run, hr]
  have hlast : stateAfter (x >>= next) machine = stateAfter x machine := by
    rw [stateAfter, hwhole, stateAfter, hr]
  refine ⟨hlast ▸ hx.input, hlast ▸ hx.output, ?_⟩
  intro left before hleft
  rw [hlast] at hleft
  rw [bind_run, hx.elsewhere left before hleft, hwhole, hr]
  rfl

-- What changes how a run ends, but in the same way at every console, uses what the run uses.
theorem of_ending {y : Eval β} {entry : Machine} (hentry : entry.console = machine.console)
    (hs : (stateAfter y machine).console = (stateAfter x entry).console)
    (hy : ∀ console last, x { entry with console } = atConsole last (x entry) →
      y { machine with console } = atConsole last (y machine))
    (hx : Uses x entry taken written) : Uses y machine taken written := by
  refine ⟨?_, ?_, ?_⟩
  · rw [hs, ← hentry]
    exact hx.input
  · rw [hs, ← hentry]
    exact hx.output
  · intro left before hleft
    rw [hs] at hleft
    exact hy _ _ (hx.elsewhere left before hleft)

theorem attempt (hx : Uses x machine taken written) : Uses (attempt x) machine taken written := by
  refine hx.of_ending rfl ?_ fun console last heq => ?_
  · rw [stateAfter, attempt_run, stateAfter]
    cases x machine with
    | ok value after => rfl
    | error signal after => cases signal <;> rfl
  · rw [attempt_run, attempt_run, heq]
    cases x machine with
    | ok value after => rfl
    | error signal after => cases signal <;> rfl

theorem catchReturn {x : Eval Value} (hx : Uses x machine taken written) :
    Uses (catchReturn x) machine taken written := by
  refine hx.of_ending rfl ?_ fun console last heq => ?_
  · rw [stateAfter, catchReturn_run, stateAfter]
    cases x machine with
    | ok value after => rfl
    | error signal after => cases signal <;> rfl
  · rw [catchReturn_run, catchReturn_run, heq]
    cases x machine with
    | ok value after => rfl
    | error signal after => cases signal <;> rfl

theorem write (text : String) (machine : Machine) : Uses (write text) machine [] text :=
  ⟨rfl, rfl, fun _ _ _ => rfl⟩

theorem readLine (machine : Machine) : ∃ taken, Uses readLine machine taken "" := by
  cases hinput : machine.console.input with
  | nil =>
      have hrun : Eval.readLine machine = .error (.failed .inputExhausted) machine := by
        rw [readLine_run, Console.readLine?, hinput]
      have hstate : stateAfter Eval.readLine machine = machine := by rw [stateAfter, hrun]
      refine ⟨[], by rw [hstate, List.nil_append], by rw [hstate, String.append_empty], ?_⟩
      intro left before hleft
      rw [hstate] at hleft
      obtain rfl : left = [] := hleft hinput
      rw [hrun, String.append_empty]
      rfl
  | cons line rest =>
      have hrun : Eval.readLine machine =
          .ok line { machine with console := { machine.console with input := rest } } := by
        rw [readLine_run, Console.readLine?, hinput]
      have hstate : stateAfter Eval.readLine machine =
          { machine with console := { machine.console with input := rest } } := by
        rw [stateAfter, hrun]
      refine ⟨[line], by rw [hstate, hinput]; rfl, by rw [hstate, String.append_empty], ?_⟩
      intro left before _
      rw [hrun, String.append_empty]
      rfl

theorem release_atConsole (frame : Nat) (machine : Machine) (console : Console) :
    Eval.release frame { machine with console } =
      atConsole console (Eval.release frame machine) := by
  rw [release_ite, release_ite]
  dsimp only
  split <;> rfl

theorem release_console (frame : Nat) (machine : Machine) :
    (stateAfter (Eval.release frame) machine).console = machine.console := by
  rw [stateAfter, release_ite]
  by_cases hlast : frame + 1 = machine.environment.depth
  · rw [if_pos hlast]
  · rw [if_neg hlast]

-- The frame of a call comes and goes without a trace at the console.
theorem inFrame (parent : Nat) {body : Nat → Eval α}
    (hlive : parent < machine.environment.depth)
    (hb : Uses (body machine.environment.depth) (entered parent machine) taken written) :
    Uses (inFrame parent body) machine taken written := by
  have hentry : (entered parent machine).console = machine.console := rfl
  refine hb.of_ending hentry ?_ fun console last heq => ?_
  · rw [stateAfter_inFrame body hlive, release_console]
  · have hbody : body machine.environment.depth (entered parent { machine with console }) =
        atConsole last (body machine.environment.depth (entered parent machine)) := heq
    have hlive' : parent < { machine with console }.environment.depth := hlive
    have hrun := inFrame_run body hlive'
    dsimp only at hrun
    rw [hrun, hbody, inFrame_run body hlive]
    cases body machine.environment.depth (entered parent machine) with
    | ok value after =>
        dsimp only [atConsole]
        rw [release_atConsole]
        cases Eval.release machine.environment.depth after <;> rfl
    | error signal after =>
        dsimp only [atConsole]
        rw [release_atConsole]
        cases Eval.release machine.environment.depth after <;> rfl

end Uses

-- However a run is put together, it uses the console in this way.
theorem Built.uses {x : Eval α} (h : Built x) (machine : Machine) :
    ∃ taken written, Uses x machine taken written := by
  induction h generalizing machine with
  | pure value => exact ⟨[], "", .of_silent fun _ => rfl⟩
  | throw signal => exact ⟨[], "", .of_silent fun _ => rfl⟩
  | bind _ _ ihx ihn =>
      rename_i x next _ _
      obtain ⟨taken, written, hx⟩ := ihx machine
      cases hr : x machine with
      | ok value after =>
          obtain ⟨lines, text, hn⟩ := ihn value after
          exact ⟨_, _, hx.bind_ok hr hn⟩
      | error signal after => exact ⟨_, _, hx.bind_error hr⟩
  | attempt _ ih =>
      obtain ⟨taken, written, hx⟩ := ih machine
      exact ⟨taken, written, hx.attempt⟩
  | catchReturn _ ih =>
      obtain ⟨taken, written, hx⟩ := ih machine
      exact ⟨taken, written, hx.catchReturn⟩
  | lookup frame name =>
      refine ⟨[], "", .of_silent fun console => ?_⟩
      rw [lookup_run, lookup_run]
      dsimp only
      cases machine.environment.get frame name <;> rfl
  | bindName frame name value =>
      refine ⟨[], "", .of_silent fun console => ?_⟩
      rw [bindName_ite, bindName_ite]
      dsimp only
      split <;> rfl
  | newFunction parameters body => exact ⟨[], "", .of_silent fun _ => rfl⟩
  | write text => exact ⟨[], text, .write text machine⟩
  | readLine =>
      obtain ⟨taken, hr⟩ := Uses.readLine machine
      exact ⟨taken, "", hr⟩
  | inFrame parent _ ih =>
      by_cases hlive : parent < machine.environment.depth
      · obtain ⟨taken, written, hb⟩ := ih machine.environment.depth (entered parent machine)
        exact ⟨taken, written, hb.inFrame parent hlive⟩
      · refine ⟨[], "", .of_silent fun console => ?_⟩
        rw [inFrame_run_of_dead _ hlive]
        exact inFrame_run_of_dead _ hlive

end Capuchin.Eval
