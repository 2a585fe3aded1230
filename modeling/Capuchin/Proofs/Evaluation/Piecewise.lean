import Capuchin.Evaluation.Session
import Capuchin.Proofs.Evaluation.Steps
import Capuchin.Proofs.Syntax.Appending

-- Programs that are run piece by piece.
namespace Capuchin

open Eval

section Blocks

variable {call : Caller} {frame : Nat}

-- A block may be cut anywhere: its second part goes on from what the first one leaves.
theorem evalBlock_append (last : Value) (first second : List Stmt) :
    evalBlock call frame last (first ++ second) = (do
      let value ← evalBlock call frame last first
      evalBlock call frame value second) := by
  induction first generalizing last with
  | nil => rw [List.nil_append, evalBlock, pure_bind]
  | cons stmt rest ih =>
      rw [List.cons_append, evalBlock, evalBlock, bind_assoc]
      simp only [ih]

-- The value before a block does not matter if the block has a statement.
theorem evalBlock_of_ne_nil (last other : Value) {block : List Stmt} (hne : block ≠ []) :
    evalBlock call frame last block = evalBlock call frame other block := by
  obtain ⟨stmt, rest, rfl⟩ := List.exists_cons_of_ne_nil hne
  rw [evalBlock, evalBlock]

end Blocks

section Programs

variable {depth : Nat} {machine after : Machine} {first second : Program}

theorem Program.visit_append (hne : second ≠ []) :
    Program.visit depth (first ++ second) = (do
      let _ ← first.visit depth
      second.visit depth) := by
  unfold visit
  rw [evalBlock_append]
  congr 1
  funext value
  exact evalBlock_of_ne_nil value .null hne

theorem Machine.perform_eval_of_value {value : Value} (hne : second ≠ [])
    (h : first.visit depth machine = .ok value after) :
    machine.perform (Program.eval depth (first ++ second)) =
      (machine.perform (first.eval depth)).2.perform (second.eval depth) := by
  have hfirst : first.eval depth machine = .ok value after := by
    rw [Program.eval, catchReturn_run, h]
  have hwhole : Program.eval depth (first ++ second) machine = second.eval depth after := by
    rw [Program.eval, catchReturn_run, Program.visit_append hne, bind_run, h, Program.eval,
      catchReturn_run]
  unfold perform EStateM.run
  rw [hwhole, hfirst]

theorem Machine.perform_eval_of_signal {signal : Signal} (hne : second ≠ [])
    (h : first.visit depth machine = .error signal after) :
    machine.perform (Program.eval depth (first ++ second)) =
      machine.perform (first.eval depth) := by
  have hwhole : Program.eval depth (first ++ second) machine = first.eval depth machine := by
    rw [Program.eval, Program.eval, catchReturn_run, catchReturn_run, Program.visit_append hne,
      bind_run, h]
  unfold perform EStateM.run
  rw [hwhole]

end Programs

-- A source run in two pieces, with white space between them, is the source run whole. If the
-- first piece does not come to its end, the second one is not reached.
theorem perform_pieces (first blanks second : String) (hfirst : (parse first).diagnostics = [])
    (hblanks : ∀ c ∈ blanks.toList, Text.isBlank c) (hsecond : (parse second).diagnostics = [])
    (hne : (parse second).program ≠ []) (depth : Nat) (machine : Machine) :
    (parse (first ++ blanks ++ second)).diagnostics = [] ∧
      (∀ value after, (parse first).program.visit depth machine = .ok value after →
        machine.perform ((parse (first ++ blanks ++ second)).program.eval depth) =
          (machine.perform ((parse first).program.eval depth)).2.perform
            ((parse second).program.eval depth)) ∧
      ∀ signal after, (parse first).program.visit depth machine = .error signal after →
        machine.perform ((parse (first ++ blanks ++ second)).program.eval depth) =
          machine.perform ((parse first).program.eval depth) := by
  rw [parse_append_blanks hfirst hblanks hsecond]
  exact ⟨rfl, fun _ _ h => Machine.perform_eval_of_value hne h,
    fun _ _ h => Machine.perform_eval_of_signal hne h⟩

theorem perform_pieces_returning :
    let first := "let x = 1; if (x == 1) \x7b return x; \x7d"
    let blanks := "\n"
    let second := "println(x + 1);"
    let machine := Machine.fresh []
    (parse first).diagnostics = [] ∧ (∀ c ∈ blanks.toList, Text.isBlank c) ∧
      (parse second).diagnostics = [] ∧ (parse second).program ≠ [] ∧
      (parse (first ++ blanks ++ second)).diagnostics = [] ∧
      (∀ value after, (parse first).program.visit 1 machine = .ok value after →
        machine.perform ((parse (first ++ blanks ++ second)).program.eval 1) =
          (machine.perform ((parse first).program.eval 1)).2.perform
            ((parse second).program.eval 1)) ∧
      ∀ signal after, (parse first).program.visit 1 machine = .error signal after →
        machine.perform ((parse (first ++ blanks ++ second)).program.eval 1) =
          machine.perform ((parse first).program.eval 1) := by
  intro first blanks second machine
  have hfirst : (parse first).diagnostics = [] := by decide +kernel
  have hblanks : ∀ c ∈ blanks.toList, Text.isBlank c := by
    simpa [blanks] using (by decide : Text.isBlank '\n')
  have hsecond : (parse second).diagnostics = [] := by decide +kernel
  have hne : (parse second).program ≠ [] := List.ne_nil_of_length_pos (by decide +kernel)
  exact ⟨hfirst, hblanks, hsecond, hne,
    perform_pieces first blanks second hfirst hblanks hsecond hne 1 machine⟩

end Capuchin
