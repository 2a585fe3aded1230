import Capuchin.CommandLine.Modes
import Capuchin.Proofs.Evaluation.Consoles
import Capuchin.Proofs.Evaluation.Discipline
import Capuchin.Proofs.Evaluation.Piecewise
import Capuchin.Proofs.Text.Deleting
import Mathlib

-- Line mode, line by line. Lines that it cannot run leave no trace in what it does with the others.
namespace Capuchin

open Eval

namespace CommandLine

-- A line with the machine that it is met by and the one that it leaves, and the crash that it ends
-- in, if it does.
structure Entry where
  line : String
  before : Machine
  after : Machine
  crash : Option Crash

-- A line that is neither blank nor rejected.
def isRunnable (line : String) : Bool :=
  !Text.isBlankLine line && (parse line).diagnostics.isEmpty

namespace Entry

def of (limit : Nat) (machine : Machine) (line : String) : Entry where
  line := line
  before := machine
  after := (evaluateLine limit machine line).2
  crash := (evaluateLine limit machine line).1

theorem of_crash (limit : Nat) (machine : Machine) (line : String) :
    (of limit machine line).crash = (evaluateLine limit machine line).1 := rfl

def isRunnable (entry : Entry) : Bool := CommandLine.isRunnable entry.line

-- What is written while the line is dealt with.
def printed (entry : Entry) : String :=
  String.ofList
    (entry.after.console.output.toList.drop entry.before.console.output.toList.length)

-- The line takes no further line off the input.
def ReadsNothing (entry : Entry) : Prop := entry.after.console.input = entry.before.console.input

instance (entry : Entry) : Decidable entry.ReadsNothing := by
  unfold ReadsNothing
  infer_instance

-- All that can be told of a line from outside: what it prints, the bindings around it, and whether
-- the process lives on.
def seen (entry : Entry) : String × Environment × String × Environment × Option Crash :=
  (entry.line, entry.before.environment, entry.printed, entry.after.environment, entry.crash)

-- What the program of the line comes to.
def outcome (limit : Nat) (entry : Entry) : Outcome :=
  (entry.before.perform ((parse entry.line).program.eval limit)).1

theorem printed_of_append {entry : Entry} {text : String}
    (h : entry.after.console.output = entry.before.console.output ++ text) :
    entry.printed = text := by
  rw [printed, h, String.toList_append, List.drop_left, String.ofList_toList]

end Entry

-- The lines that line mode takes off the input, as it goes through them.
def entries (limit : Nat) : Nat → Machine → List Entry
  | 0, _ => []
  | bound + 1, machine =>
    match machine.console.readLine? with
    | none => []
    | some (line, console) =>
      let entry := Entry.of limit { machine with console } line
      entry :: if entry.crash = none then entries limit bound entry.after else []

def session (limit : Nat) (stdin : String) : List Entry :=
  entries limit (Text.lines stdin).length (Machine.fresh (Text.lines stdin))

-- Each line finds the bindings that the one before it has left.
def Linked : Environment → List Entry → Prop
  | _, [] => True
  | environment, entry :: rest =>
      entry.before.environment = environment ∧ Linked entry.after.environment rest

section Lines

variable {limit : Nat} {machine : Machine} {line : String}

theorem evaluateLine_of_not_runnable (limit : Nat) (machine : Machine) (h : ¬isRunnable line) :
    ∃ text, evaluateLine limit machine line =
      (none, { machine with console := machine.console.write text }) := by
  unfold evaluateLine
  by_cases hblank : Text.isBlankLine line
  · refine ⟨"", ?_⟩
    rw [if_pos hblank, Console.write, String.append_empty]
  · have hfaulty : ¬(parse line).diagnostics.isEmpty := by simpa [isRunnable, hblank] using h
    rw [if_neg hblank, Machine.runWithin, if_neg hfaulty]
    exact ⟨_, rfl⟩

theorem evaluateLine_of_runnable (h : isRunnable line) :
    evaluateLine limit machine line =
      (crash? (machine.perform ((parse line).program.eval limit)).1,
        { (machine.perform ((parse line).program.eval limit)).2 with
          console := (machine.perform ((parse line).program.eval limit)).2.console.write
            (answer (machine.perform ((parse line).program.eval limit)).1) }) := by
  obtain ⟨hblank, hclean⟩ : ¬Text.isBlankLine line ∧ (parse line).diagnostics.isEmpty := by
    simpa [isRunnable] using h
  rw [evaluateLine, if_neg hblank, Machine.runWithin, if_pos hclean]

theorem evaluateLine_console_input (h : isRunnable line) :
    (evaluateLine limit machine line).2.console.input =
      (stateAfter ((parse line).program.eval limit) machine).console.input := by
  rw [evaluateLine_of_runnable h, Machine.perform_snd]
  rfl

-- A line only adds to the output.
theorem evaluateLine_output (limit : Nat) (machine : Machine) (line : String) :
    ∃ text, (evaluateLine limit machine line).2.console.output =
      machine.console.output ++ text := by
  by_cases h : isRunnable line
  · obtain ⟨taken, written, hu⟩ := ((parse line).program.eval_built limit).uses machine
    rw [evaluateLine_of_runnable h, Machine.perform_snd]
    exact ⟨written ++ _, by rw [Console.write, hu.output, String.append_assoc]⟩
  · obtain ⟨text, heq⟩ := evaluateLine_of_not_runnable limit machine h
    exact ⟨text, by rw [heq]; rfl⟩

-- A line that reads nothing does the same wherever the output stands and whatever comes behind
-- it, if anything comes behind it at all.
theorem evaluateLine_elsewhere (h : isRunnable line)
    (hnothing : (evaluateLine limit machine line).2.console.input = machine.console.input) :
    ∃ text,
      (evaluateLine limit machine line).2.console.output = machine.console.output ++ text ∧
      ∀ left before, (machine.console.input = [] → left = []) →
        evaluateLine limit { machine with console := { input := left, output := before } } line =
          ((evaluateLine limit machine line).1, { (evaluateLine limit machine line).2 with
            console := { input := left, output := before ++ text } }) := by
  obtain ⟨taken, written, hu⟩ := ((parse line).program.eval_built limit).uses machine
  rw [evaluateLine_console_input h] at hnothing
  obtain rfl : taken = [] := by
    have hinput := hu.input
    rw [hnothing] at hinput
    simpa using hinput
  refine ⟨written ++ answer (machine.perform ((parse line).program.eval limit)).1, ?_, ?_⟩
  · rw [evaluateLine_of_runnable h, Machine.perform_snd, Console.write, hu.output,
      String.append_assoc]
  · intro left before hleft
    have hrun := hu.elsewhere left before (hnothing ▸ hleft)
    rw [evaluateLine_of_runnable h, evaluateLine_of_runnable h]
    unfold Machine.perform EStateM.run
    rw [List.nil_append] at hrun
    rw [hrun]
    cases (parse line).program.eval limit machine with
    | ok value after => simp only [atConsole, Console.write, String.append_assoc]
    | error signal after => simp only [atConsole, Console.write, String.append_assoc]

theorem evaluateLine_onlyChanged (limit : Nat) {environment : Environment}
    (hw : environment.WellFormed) (machine : Machine) (h : machine.environment = environment)
    (line : String) :
    Environment.OnlyChanged Environment.root environment
      (evaluateLine limit machine line).2.environment := by
  subst h
  by_cases hrun : isRunnable line
  · rw [evaluateLine_of_runnable hrun, Machine.perform_snd]
    exact (Program.eval_maintains limit hw _).stateAfter (.refl _ _)
  · obtain ⟨text, hafter⟩ := evaluateLine_of_not_runnable limit machine hrun
    rw [hafter]
    exact .refl _ _

end Lines

section Sessions

variable {limit : Nat} {machine other : Machine} {line : String} {rest lines : List String}

-- The machine behind a line that has been taken off its input.
def leaving (rest : List String) (machine : Machine) : Machine :=
  { machine with console := { machine.console with input := rest } }

theorem entries_of_nil (bound : Nat) (hinput : machine.console.input = []) :
    entries limit bound machine = [] := by
  cases bound with
  | zero => rfl
  | succ bound => rw [entries, Console.readLine?, hinput]

theorem entries_of_cons (bound : Nat) (hinput : machine.console.input = line :: rest) :
    entries limit (bound + 1) machine =
      Entry.of limit (leaving rest machine) line ::
        if (evaluateLine limit (leaving rest machine) line).1 = none then
          entries limit bound (evaluateLine limit (leaving rest machine) line).2
        else [] := by
  rw [entries, Console.readLine?, hinput]
  rfl

theorem evaluateLines_of_cons (bound : Nat) (hinput : machine.console.input = line :: rest) :
    evaluateLines limit (bound + 1) machine =
      if (evaluateLine limit (leaving rest machine) line).1 = none then
        evaluateLines limit bound (evaluateLine limit (leaving rest machine) line).2
      else evaluateLine limit (leaving rest machine) line := by
  rw [evaluateLines, Console.readLine?, hinput]
  dsimp only [leaving]
  split
  case h_1 after hline => simp only [hline, if_true]
  case h_2 crash after hline => simp [hline]

-- What is printed is printed for the lines, one after the other, and a crash is one of a line.
theorem evaluateLines_entries (limit bound : Nat) (machine : Machine) :
    (evaluateLines limit bound machine).1 =
        (entries limit bound machine).findSome? Entry.crash ∧
      (evaluateLines limit bound machine).2.console.output = machine.console.output ++
        String.join ((entries limit bound machine).map Entry.printed) := by
  induction bound generalizing machine with
  | zero => simp [evaluateLines, entries, String.join]
  | succ bound ih =>
      cases hinput : machine.console.input with
      | nil =>
          rw [entries_of_nil _ hinput, evaluateLines, Console.readLine?, hinput]
          simp [String.join]
      | cons line rest =>
          obtain ⟨text, htext⟩ := evaluateLine_output limit (leaving rest machine) line
          have hprinted : (Entry.of limit (leaving rest machine) line).printed = text :=
            Entry.printed_of_append htext
          rw [entries_of_cons _ hinput, evaluateLines_of_cons _ hinput, List.findSome?_cons,
            List.map_cons, String.join_cons, hprinted, ← String.append_assoc, Entry.of_crash]
          by_cases hcrash : (evaluateLine limit (leaving rest machine) line).1 = none
          · obtain ⟨hfirst, houtput⟩ := ih (evaluateLine limit (leaving rest machine) line).2
            rw [if_pos hcrash, if_pos hcrash, hcrash, houtput, htext]
            exact ⟨hfirst, rfl⟩
          · obtain ⟨crash, hsome⟩ := Option.ne_none_iff_exists'.mp hcrash
            rw [if_neg hcrash, if_neg hcrash, hsome, htext]
            exact ⟨rfl, String.append_empty.symm⟩

-- With nothing read in between and no crash, each line of the input is met once.
theorem entries_lines (hinput : machine.console.input = lines)
    (hnothing : ∀ entry ∈ entries limit lines.length machine, entry.ReadsNothing)
    (hcrash : ∀ entry ∈ entries limit lines.length machine, entry.crash = none) :
    (entries limit lines.length machine).map Entry.line = lines := by
  induction lines generalizing machine with
  | nil => rw [entries_of_nil _ hinput, List.map_nil]
  | cons line rest ih =>
      rw [List.length_cons, entries_of_cons _ hinput] at hnothing hcrash ⊢
      obtain ⟨hfirst, hrest⟩ := List.forall_mem_cons.mp hnothing
      obtain ⟨hnone, hothers⟩ := List.forall_mem_cons.mp hcrash
      have hlive : (evaluateLine limit (leaving rest machine) line).1 = none := hnone
      rw [if_pos hlive] at hrest hothers ⊢
      exact congrArg (line :: ·) (ih hfirst hrest hothers)

-- A line that reads nothing is the same thing to any machine with the same bindings, provided
-- that lines are left to the one if they are to the other.
theorem seen_of_readsNothing (hrun : isRunnable line)
    (henvironment : other.environment = machine.environment)
    (hcreated : other.created = machine.created)
    (hnothing : (Entry.of limit machine line).ReadsNothing)
    (hleft : machine.console.input = [] → other.console.input = []) :
    (Entry.of limit other line).seen = (Entry.of limit machine line).seen ∧
      (evaluateLine limit other line).1 = (evaluateLine limit machine line).1 ∧
      (evaluateLine limit other line).2.console.input = other.console.input ∧
      (evaluateLine limit other line).2.environment =
        (evaluateLine limit machine line).2.environment ∧
      (evaluateLine limit other line).2.created = (evaluateLine limit machine line).2.created := by
  obtain ⟨environment, ⟨left, before⟩, created⟩ := other
  dsimp only at henvironment hcreated hleft
  subst henvironment hcreated
  obtain ⟨text, htext, helsewhere⟩ := evaluateLine_elsewhere hrun hnothing
  have hafter := helsewhere left before hleft
  have hprinted : (Entry.of limit machine line).printed = text := Entry.printed_of_append htext
  have hsame :
      (Entry.of limit ⟨machine.environment, ⟨left, before⟩, machine.created⟩ line).printed =
        text := Entry.printed_of_append (congrArg (·.2.console.output) hafter)
  refine ⟨?_, by rw [hafter], by rw [hafter], by rw [hafter], by rw [hafter]⟩
  unfold Entry.seen
  rw [hprinted, hsame]
  unfold Entry.of
  rw [hafter]

-- A second machine with the same bindings is given only those lines that can be run. It makes of
-- them what the first one makes of them.
theorem entries_filter (hinput : machine.console.input = lines)
    (hleft : other.console.input = lines.filter isRunnable)
    (henvironment : other.environment = machine.environment)
    (hcreated : other.created = machine.created)
    (hnothing : ∀ entry ∈ entries limit lines.length machine, entry.ReadsNothing) :
    (entries limit (lines.filter isRunnable).length other).map Entry.seen =
      ((entries limit lines.length machine).filter Entry.isRunnable).map Entry.seen := by
  induction lines generalizing machine other with
  | nil =>
      rw [entries_of_nil _ hinput, entries_of_nil _ hleft]
      rfl
  | cons line rest ih =>
      rw [List.length_cons, entries_of_cons _ hinput] at hnothing ⊢
      obtain ⟨hfirst, hrest⟩ := List.forall_mem_cons.mp hnothing
      by_cases hrun : isRunnable line
      · have hkept : (Entry.of limit (leaving rest machine) line).isRunnable := hrun
        rw [List.filter_cons_of_pos hrun] at hleft ⊢
        rw [List.length_cons, entries_of_cons _ hleft, List.filter_cons_of_pos hkept, List.map_cons,
          List.map_cons]
        have hempty : (leaving rest machine).console.input = [] →
            (leaving (rest.filter isRunnable) other).console.input = [] := by
          rintro (rfl : rest = [])
          rfl
        have hbefore : (leaving (rest.filter isRunnable) other).environment =
            (leaving rest machine).environment := henvironment
        have hcount : (leaving (rest.filter isRunnable) other).created =
            (leaving rest machine).created := hcreated
        obtain ⟨hhead, hcrash, hother, hbindings, hnumber⟩ :=
          seen_of_readsNothing hrun hbefore hcount hfirst hempty
        rw [hhead, hcrash]
        by_cases hlive : (evaluateLine limit (leaving rest machine) line).1 = none
        · rw [if_pos hlive] at hrest ⊢
          rw [if_pos hlive]
          exact congrArg (_ :: ·) (ih hfirst hother hbindings hnumber hrest)
        · rw [if_neg hlive, if_neg hlive]
          rfl
      · have hlost : ¬(Entry.of limit (leaving rest machine) line).isRunnable := hrun
        rw [List.filter_cons_of_neg hrun] at hleft ⊢
        rw [List.filter_cons_of_neg hlost]
        obtain ⟨text, hafter⟩ := evaluateLine_of_not_runnable limit (leaving rest machine) hrun
        rw [hafter, if_pos rfl] at hrest ⊢
        exact ih rfl hleft henvironment hcreated hrest

-- What holds of no lines, and of a line together with those behind it if it holds of these, holds
-- of all the lines that line mode takes.
theorem entries_induction {P : Machine → List Entry → Prop} (hnil : ∀ machine, P machine [])
    (hcons : ∀ machine line rest lines,
      P (evaluateLine limit (leaving rest machine) line).2 lines →
      P machine (Entry.of limit (leaving rest machine) line :: lines))
    (bound : Nat) (machine : Machine) : P machine (entries limit bound machine) := by
  induction bound generalizing machine with
  | zero => exact hnil machine
  | succ bound ih =>
      cases hinput : machine.console.input with
      | nil =>
          rw [entries_of_nil _ hinput]
          exact hnil machine
      | cons line rest =>
          rw [entries_of_cons _ hinput]
          apply hcons
          split
          · exact ih _
          · exact hnil _

-- Only lines that can be run change the bindings.
theorem linked_filter (bound : Nat) (machine : Machine) :
    Linked machine.environment ((entries limit bound machine).filter Entry.isRunnable) := by
  apply entries_induction (P := fun machine lines =>
    Linked machine.environment (lines.filter Entry.isRunnable))
  · intro machine
    trivial
  · intro machine line rest lines hlines
    by_cases hrun : isRunnable line
    · have hkept : (Entry.of limit (leaving rest machine) line).isRunnable := hrun
      rw [List.filter_cons_of_pos hkept]
      exact ⟨rfl, hlines⟩
    · have hlost : ¬(Entry.of limit (leaving rest machine) line).isRunnable := hrun
      obtain ⟨text, hafter⟩ := evaluateLine_of_not_runnable limit (leaving rest machine) hrun
      rw [hafter] at hlines
      rw [List.filter_cons_of_neg hlost]
      exact hlines

-- Each entry is a line that is met on some machine, and the frames are those of the root alone.
theorem entries_of (hw : machine.environment.WellFormed) (limit bound : Nat) :
    ∀ entry ∈ entries limit bound machine, entry = Entry.of limit entry.before entry.line ∧
      entry.before.environment.WellFormed ∧
      entry.before.environment.depth = machine.environment.depth := by
  revert hw
  apply entries_induction (P := fun machine lines => machine.environment.WellFormed →
    ∀ entry ∈ lines, entry = Entry.of limit entry.before entry.line ∧
      entry.before.environment.WellFormed ∧
      entry.before.environment.depth = machine.environment.depth)
  · intro machine hw entry hentry
    exact absurd hentry List.not_mem_nil
  · intro machine line rest lines hlines hw
    have hafter := evaluateLine_onlyChanged limit hw (leaving rest machine) rfl line
    refine List.forall_mem_cons.mpr ⟨⟨rfl, hw, rfl⟩, fun entry hentry => ?_⟩
    obtain ⟨hof, hwell, hdepth⟩ := hlines (hafter.wellFormed hw) entry hentry
    exact ⟨hof, hwell, hdepth.trans hafter.depth⟩

end Sessions

section Programs

variable {limit : Nat} {machine : Machine} {line : String}

theorem perform_eval_cases (limit : Nat) (hw : machine.environment.WellFormed)
    (program : Program) :
    (∃ value, (machine.perform (program.eval limit)).1 = .value value) ∨
      (∃ error, (machine.perform (program.eval limit)).1 = .stopped (.failed error)) ∨
        (machine.perform (program.eval limit)).1 = .stopped .tooDeep := by
  unfold Machine.perform EStateM.run
  cases hr : program.eval limit machine with
  | ok value after => exact .inl ⟨value, rfl⟩
  | error signal after =>
      have hs : outcome (program.eval limit) machine = .error signal := by rw [outcome, hr]
      obtain ⟨error, rfl⟩ | rfl := program.eval_signal limit hw hs
      · exact .inr (.inl ⟨error, rfl⟩)
      · exact .inr (.inr rfl)

-- Only calls that are nested too deeply crash the process, and only in lines that can be run.
theorem crash_eq_none_iff (hw : machine.environment.WellFormed) (line : String) :
    (Entry.of limit machine line).crash = none ↔
      (isRunnable line → (Entry.of limit machine line).outcome limit ≠ .stopped .tooDeep) := by
  change (evaluateLine limit machine line).1 = none ↔
    (isRunnable line → (machine.perform ((parse line).program.eval limit)).1 ≠ .stopped .tooDeep)
  by_cases hrun : isRunnable line
  · rw [evaluateLine_of_runnable hrun]
    obtain ⟨value, h⟩ | ⟨error, h⟩ | h := perform_eval_cases limit hw (parse line).program
    all_goals simp [h, hrun, crash?]
  · obtain ⟨text, hafter⟩ := evaluateLine_of_not_runnable limit machine hrun
    simp [hafter, hrun]

end Programs

-- What comes of a line that can be run: its program is evaluated on the machine before it. What
-- the program writes is printed, and behind it the answer, if there is one. What it has bound
-- stays, whether it comes to its end or not.
structure Entry.Evaluated (limit : Nat) (entry : Entry) : Prop where
  printed : ∃ written,
    (entry.before.perform ((parse entry.line).program.eval limit)).2.console.output =
        entry.before.console.output ++ written ∧
      ((∃ value, entry.outcome limit = .value value ∧
          entry.printed = written ++ (value.text ++ "\n")) ∨
        (∃ error, entry.outcome limit = .stopped (.failed error) ∧
          entry.printed = written ++ ("Error: " ++ error.message ++ "\n")) ∨
        entry.outcome limit = .stopped .tooDeep ∧ entry.printed = written)
  bound : entry.after.environment =
    (entry.before.perform ((parse entry.line).program.eval limit)).2.environment
  failed : ∀ done stmt rest value between error last,
    (parse entry.line).program = done ++ stmt :: rest →
    Program.visit limit done entry.before = .ok value between →
    stmt.eval (callFunction limit) Environment.root between = .error (.failed error) last →
    entry.outcome limit = .stopped (.failed error) ∧ entry.after.environment = last.environment
  depth : entry.before.environment.depth = 1 ∧ entry.after.environment.depth = 1

theorem evaluated_of {limit : Nat} {machine : Machine} (hw : machine.environment.WellFormed)
    (hdepth : machine.environment.depth = 1) {line : String} (hrun : isRunnable line) :
    (Entry.of limit machine line).Evaluated limit where
  printed := by
    obtain ⟨taken, written, hu⟩ := ((parse line).program.eval_built limit).uses machine
    refine ⟨written, ?_, ?_⟩
    · rw [Machine.perform_snd]
      exact hu.output
    · have hprinted : (Entry.of limit machine line).printed =
          written ++ answer ((Entry.of limit machine line).outcome limit) := by
        apply Entry.printed_of_append
        change (evaluateLine limit machine line).2.console.output = machine.console.output ++ _
        rw [evaluateLine_of_runnable hrun, Machine.perform_snd, Console.write, hu.output,
          String.append_assoc]
        rfl
      obtain ⟨value, h⟩ | ⟨error, h⟩ | (h : (Entry.of limit machine line).outcome limit = _) :=
        perform_eval_cases limit hw (parse line).program
      · refine .inl ⟨value, h, ?_⟩
        rw [hprinted]
        exact congrArg (written ++ answer ·) h
      · refine .inr (.inl ⟨error, h, ?_⟩)
        rw [hprinted]
        exact congrArg (written ++ answer ·) h
      · refine .inr (.inr ⟨h, ?_⟩)
        rw [hprinted, h]
        exact String.append_empty
  bound := by
    change (evaluateLine limit machine line).2.environment = _
    rw [evaluateLine_of_runnable hrun]
    rfl
  failed := by
    intro done stmt rest value between error last hprogram hdone hstmt
    have hvisit : (parse line).program.visit limit machine = .error (.failed error) last := by
      have hdone' : evalBlock (callFunction limit) Environment.root .null done machine =
          .ok value between := hdone
      rw [show (parse line).program = done ++ stmt :: rest from hprogram, Program.visit,
        evalBlock_append, bind_run, hdone']
      dsimp only
      rw [evalBlock, bind_run, hstmt]
    have heval : (parse line).program.eval limit machine = .error (.failed error) last := by
      rw [Program.eval, catchReturn_run, hvisit]
    refine ⟨?_, ?_⟩
    · change (machine.perform ((parse line).program.eval limit)).1 = _
      rw [Machine.perform, EStateM.run, heval]
    · change (evaluateLine limit machine line).2.environment = _
      rw [evaluateLine_of_runnable hrun, Machine.perform, EStateM.run, heval]
  depth := by
    have hchanged := evaluateLine_onlyChanged limit hw machine rfl line
    exact ⟨hdepth, hchanged.depth.trans hdepth⟩

theorem lineMode_eq (limit : Nat) (stdin : String) :
    lineMode limit stdin = ended ((session limit stdin).findSome? Entry.crash)
      (String.join ((session limit stdin).map Entry.printed)) := by
  obtain ⟨hcrash, houtput⟩ :=
    evaluateLines_entries limit (Text.lines stdin).length (Machine.fresh (Text.lines stdin))
  rw [lineMode]
  dsimp only
  rw [hcrash, houtput]
  exact congrArg (ended _) String.empty_append

theorem ended_code (crash : Option Crash) (stdout other : String) :
    (ended crash stdout).code = (ended crash other).code := by
  cases crash <;> rfl

theorem ended_code_eq_zero {crash : Option Crash} {stdout : String} :
    (ended crash stdout).code = 0 ↔ crash = none := by
  cases crash with
  | none => simp [ended]
  | some crash => cases crash <;> simp [ended, Crash.code]

theorem ended_stdout (crash : Option Crash) (stdout : String) :
    (ended crash stdout).stdout = stdout := by
  cases crash <;> rfl

theorem runWithin_eq_lineMode {arguments : List String} {options : Options}
    (hoptions : Options.read arguments = .ok options) (hcontents : options.contents = none)
    (limit : Nat) (contentsOf : String → Except String String) (stdin : String) :
    runWithin limit contentsOf arguments stdin = lineMode limit stdin := by
  rw [runWithin, hoptions]
  dsimp only
  rw [hcontents]

-- Lines that can be run crash, the others do not.
theorem findSome?_crash_filter {lines : List Entry}
    (h : ∀ entry ∈ lines, ¬entry.isRunnable → entry.crash = none) :
    (lines.filter Entry.isRunnable).findSome? Entry.crash = lines.findSome? Entry.crash := by
  induction lines with
  | nil => rfl
  | cons entry rest ih =>
      obtain ⟨hentry, hrest⟩ := List.forall_mem_cons.mp h
      by_cases hrun : entry.isRunnable
      · rw [List.filter_cons_of_pos hrun, List.findSome?_cons, List.findSome?_cons, ih hrest]
      · rw [List.filter_cons_of_neg hrun, List.findSome?_cons, hentry hrun, ih hrest]

theorem parse_endless : (parse "fn f() { f(); } f();").program = .endless "f" := by
  have h : (parse "fn f() { f(); } f();").program.endlessName? = some "f" := by decide +kernel
  exact Program.eq_endless h

theorem evaluateLine_endless (limit : Nat) {machine : Machine}
    (hlive : Environment.root < machine.environment.depth) :
    ∃ after : Machine, after.console = machine.console ∧
      evaluateLine limit machine "fn f() { f(); } f();" = (some .outOfStack, after) := by
  have hrun : isRunnable "fn f() { f(); } f();" := by decide +kernel
  obtain ⟨after, hconsole, heval⟩ := Program.eval_endless limit hlive "f"
  have hperform : machine.perform ((parse "fn f() { f(); } f();").program.eval limit) =
      (.stopped .tooDeep, after) := by
    rw [parse_endless, Machine.perform, EStateM.run, heval]
  refine ⟨{ after with console := after.console.write "" }, ?_, ?_⟩
  · rw [Console.write, String.append_empty]
    exact hconsole
  · rw [evaluateLine_of_runnable hrun, hperform]
    rfl

-- Whatever room the stack has, the process crashes and answers nothing.
theorem runWithin_endless (limit : Nat) :
    (∀ entry ∈ session limit "fn f() { f(); } f();", entry.ReadsNothing) ∧
      runWithin limit (fun _ => .ok "") [] "fn f() { f(); } f();" =
        ended (some .outOfStack) "" := by
  have hlines : Text.lines "fn f() { f(); } f();" = ["fn f() { f(); } f();"] := by decide +kernel
  have hlive : Environment.root <
      (leaving [] (Machine.fresh ["fn f() { f(); } f();"])).environment.depth := by decide +kernel
  have hinput : (Machine.fresh ["fn f() { f(); } f();"]).console.input =
      ["fn f() { f(); } f();"] := rfl
  have hinitial : Options.read [] = .ok .initial := rfl
  obtain ⟨after, hconsole, hline⟩ := evaluateLine_endless limit hlive
  constructor
  · unfold session
    rw [hlines, List.length_singleton, entries_of_cons 0 hinput, hline]
    refine List.forall_mem_singleton.mpr ?_
    unfold Entry.ReadsNothing Entry.of
    rw [hline]
    exact congrArg Console.input hconsole
  · rw [runWithin_eq_lineMode hinitial rfl, lineMode]
    dsimp only
    rw [hlines, List.length_singleton, evaluateLines_of_cons 0 hinput, hline]
    exact congrArg (fun console => ended (some .outOfStack) console.output) hconsole

section Kept

variable {limit : Nat} {stdin : String} {entry : Entry}

theorem entry_of_mem_session (h : entry ∈ session limit stdin) :
    entry = Entry.of limit entry.before entry.line ∧ entry.before.environment.WellFormed ∧
      entry.before.environment.depth = 1 := by
  have hroot : Environment.OnlyChanged Environment.root .empty
      (Machine.fresh (Text.lines stdin)).environment :=
    Environment.onlyChanged_install .empty Environment.root
  obtain ⟨hof, hw, hdepth⟩ :=
    entries_of (hroot.wellFormed Environment.empty_wellFormed) limit _ entry h
  exact ⟨hof, hw, hdepth.trans hroot.depth⟩

theorem crash_of_mem_session (h : entry ∈ session limit stdin) :
    entry.crash = none ↔ (entry.isRunnable → entry.outcome limit ≠ .stopped .tooDeep) := by
  obtain ⟨hof, hw, -⟩ := entry_of_mem_session h
  rw [hof]
  exact crash_eq_none_iff hw entry.line

theorem session_keepLines (hnothing : ∀ entry ∈ session limit stdin, entry.ReadsNothing) :
    (session limit (Text.keepLines isRunnable stdin)).map Entry.seen =
      ((session limit stdin).filter Entry.isRunnable).map Entry.seen := by
  unfold session
  rw [Text.lines_keepLines]
  exact entries_filter rfl rfl rfl rfl hnothing

-- The lines that are left crash where they did among the others.
theorem crash_keepLines (hnothing : ∀ entry ∈ session limit stdin, entry.ReadsNothing) :
    (session limit (Text.keepLines isRunnable stdin)).findSome? Entry.crash =
      (session limit stdin).findSome? Entry.crash := by
  have hcrash := congrArg (List.findSome? fun seen => seen.2.2.2.2) (session_keepLines hnothing)
  rw [List.findSome?_map, List.findSome?_map] at hcrash
  refine hcrash.trans (findSome?_crash_filter fun entry hentry hrun => ?_)
  exact (crash_of_mem_session hentry).mpr fun h => absurd h hrun

theorem lineMode_code_eq_zero :
    (lineMode limit stdin).code = 0 ↔ ∀ entry ∈ session limit stdin, entry.crash = none := by
  rw [lineMode_eq, ended_code_eq_zero, List.findSome?_eq_none_iff]

end Kept

end CommandLine

end Capuchin
