import Capuchin.Text.Lines
import Mathlib

-- Texts with some of their lines deleted.
namespace Capuchin.Text

-- The text behind the characters of `line`, which are given backwards, with those lines only that
-- are to be kept. With a line goes what ends it.
def keepFrom (keep : String → Bool) (line : List Char) : List Char → List Char
  | [] => if keep (String.ofList line.reverse) then line.reverse else []
  | '\n' :: rest =>
    (if keep (String.ofList (withoutReturn line).reverse) then line.reverse ++ ['\n'] else []) ++
      keepFrom keep [] rest
  | c :: rest => keepFrom keep (c :: line) rest

def keepLines (keep : String → Bool) (text : String) : String :=
  String.ofList (keepFrom keep [] text.toList)

theorem linesFrom_cons {c : Char} (hc : c ≠ '\n') (line rest : List Char) :
    linesFrom line (c :: rest) = linesFrom (c :: line) rest := by
  rw [linesFrom]
  exact hc

theorem linesFrom_append (line : List Char) {part : List Char} (hpart : '\n' ∉ part)
    (rest : List Char) : linesFrom line (part ++ rest) = linesFrom (part.reverse ++ line) rest := by
  induction part generalizing line with
  | nil => rfl
  | cons c part ih =>
      obtain ⟨hc, hpart⟩ : c ≠ '\n' ∧ '\n' ∉ part := by simpa [eq_comm] using hpart
      rw [List.cons_append, linesFrom_cons hc, ih _ hpart, List.reverse_cons, List.append_assoc,
        List.singleton_append]

-- A line whose characters have been kept is found again.
theorem linesFrom_reverse_append {line : List Char} (hline : '\n' ∉ line) (rest : List Char) :
    linesFrom [] (line.reverse ++ rest) = linesFrom line rest := by
  rw [linesFrom_append [] (by simpa using hline), List.reverse_reverse, List.append_nil]

theorem linesFrom_keepFrom (keep : String → Bool) {line : List Char} (hline : '\n' ∉ line)
    (text : List Char) :
    linesFrom [] (keepFrom keep line text) = (linesFrom line text).filter keep := by
  induction text generalizing line with
  | nil =>
      have hlast := linesFrom_reverse_append hline []
      rw [List.append_nil] at hlast
      by_cases hkeep : keep (String.ofList line.reverse)
      · rw [keepFrom, if_pos hkeep, hlast, linesFrom]
        split <;> simp [hkeep]
      · rw [keepFrom, if_neg hkeep, linesFrom, if_pos rfl, linesFrom]
        split <;> simp [hkeep]
  | cons c rest ih =>
      by_cases hc : c = '\n'
      · subst hc
        have hrest := ih List.not_mem_nil
        by_cases hkeep : keep (String.ofList (withoutReturn line).reverse)
        · rw [keepFrom, if_pos hkeep, List.append_assoc, linesFrom_reverse_append hline,
            List.singleton_append, linesFrom, linesFrom, List.filter_cons_of_pos hkeep, hrest]
        · rw [keepFrom, if_neg hkeep, List.nil_append, linesFrom, List.filter_cons_of_neg hkeep,
            hrest]
      · rw [linesFrom_cons hc, keepFrom]
        · exact ih (by simpa [eq_comm] using And.intro hc hline)
        · exact hc

theorem lines_keepLines (keep : String → Bool) (text : String) :
    lines (keepLines keep text) = (lines text).filter keep := by
  rw [lines, keepLines, String.toList_ofList, linesFrom_keepFrom keep List.not_mem_nil, lines]

end Capuchin.Text
