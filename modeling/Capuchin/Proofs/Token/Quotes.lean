import Capuchin.Proofs.Token.Languages
import Capuchin.Proofs.Token.Scanning
import Capuchin.Syntax.Tree
import Mathlib

-- How a string literal ends, and what its content says about it.
namespace Capuchin

open Lexer Pattern

-- A string literal taken apart the way it is scanned: pieces behind the opening quote, and then
-- what ends it. That is the closing quote, a backslash, or nothing where the text itself ends.
structure QuotedAs (literal : String) (pieces : List (List Char)) (last : List Char) : Prop where
  text : literal.toList = '"' :: (pieces.flatten ++ last)
  body : ∀ piece ∈ pieces, piece ∈ quoted
  stop : last ∈ ending

-- Where a piece can begin, what ends a literal cannot.
theorem ending_ne_quoted_append {piece last more : List Char} (hpiece : piece ∈ quoted)
    (hlast : last ∈ ending) : last ≠ piece ++ more := by
  obtain ⟨c, hquote, hslash, rfl⟩ | rfl := mem_quoted.mp hpiece
  · obtain rfl | rfl | rfl := mem_ending.mp hlast <;> simp [Ne.symm hquote, Ne.symm hslash]
  · obtain rfl | rfl | rfl := mem_ending.mp hlast <;> simp

-- The first piece is told by its first character.
theorem quoted_unique {piece other more rest : List Char} (hpiece : piece ∈ quoted)
    (hother : other ∈ quoted) (h : piece ++ more = other ++ rest) : piece = other := by
  obtain ⟨c, -, hslash, rfl⟩ | rfl := mem_quoted.mp hpiece
  · obtain ⟨d, -, -, rfl⟩ | rfl := mem_quoted.mp hother
    · rw [(List.cons.inj h).1]
    · exact absurd (List.cons.inj h).1 hslash
  · obtain ⟨d, -, hslash, rfl⟩ | rfl := mem_quoted.mp hother
    · exact absurd (List.cons.inj h).1.symm hslash
    · rfl

theorem pieces_unique {pieces others : List (List Char)} {last final : List Char}
    (hpieces : ∀ piece ∈ pieces, piece ∈ quoted) (hothers : ∀ piece ∈ others, piece ∈ quoted)
    (hlast : last ∈ ending) (hfinal : final ∈ ending)
    (h : pieces.flatten ++ last = others.flatten ++ final) : pieces = others ∧ last = final := by
  induction pieces generalizing others with
  | nil =>
      cases others with
      | nil => exact ⟨rfl, h⟩
      | cons other others =>
          rw [List.flatten_cons, List.append_assoc] at h
          exact absurd h (ending_ne_quoted_append (hothers other List.mem_cons_self) hlast)
  | cons piece pieces ih =>
      obtain ⟨hpiece, hpieces⟩ := List.forall_mem_cons.mp hpieces
      rw [List.flatten_cons, List.append_assoc] at h
      cases others with
      | nil => exact absurd h.symm (ending_ne_quoted_append hpiece hfinal)
      | cons other others =>
          obtain ⟨hother, hrest⟩ := List.forall_mem_cons.mp hothers
          rw [List.flatten_cons, List.append_assoc] at h
          obtain rfl := quoted_unique hpiece hother h
          obtain ⟨rfl, rfl⟩ := ih hpieces hrest (List.append_cancel_left h)
          exact ⟨rfl, rfl⟩

namespace QuotedAs

variable {literal : String} {pieces : List (List Char)} {last : List Char}

-- There is one way to take a literal apart, so that it is closed or not.
theorem unique {others : List (List Char)} {final : List Char} (h : QuotedAs literal pieces last)
    (h' : QuotedAs literal others final) : others = pieces ∧ final = last :=
  pieces_unique h'.body h.body h'.stop h.stop
    (List.cons.inj (h'.text.symm.trans h.text)).2

-- The last character of the pieces is a quote only in a pair.
theorem getLast?_flatten (hpieces : ∀ piece ∈ pieces, piece ∈ quoted) :
    pieces.flatten.getLast? = some '"' ↔ pieces.getLast? = some ['\\', '"'] := by
  obtain rfl | ⟨earlier, piece, rfl⟩ := List.eq_nil_or_concat' pieces
  · simp
  · rw [List.flatten_concat, List.getLast?_concat]
    obtain ⟨c, hquote, -, rfl⟩ | rfl := mem_quoted.mp (hpieces piece (by simp))
    · simp [hquote]
    · simp

-- The content is what its last character makes of a literal, whether that character closes it or
-- belongs to a pair.
theorem stringContent_eq (h : QuotedAs literal pieces last) :
    stringContent literal =
      if last = ['"'] then String.ofList pieces.flatten
      else if last = [] ∧ pieces.getLast? = some ['\\', '"'] then
        String.ofList pieces.flatten.dropLast
      else literal := by
  have hcontent : stringContent literal =
      if (pieces.flatten ++ last).getLast? = some '"' then
        String.ofList (pieces.flatten ++ last).dropLast
      else literal := by
    rw [stringContent, h.text]
    rfl
  rw [hcontent]
  obtain rfl | rfl | rfl := mem_ending.mp h.stop
  · simp [getLast?_flatten h.body]
  · simp
  · simp

end QuotedAs

-- A literal that nothing ends takes all of the text.
theorem behind_of_unended {pieces : List (List Char)} {behind : List Char}
    (hpieces : ∀ piece ∈ pieces, piece ∈ quoted)
    (h : quotedLength (pieces.flatten ++ behind) = pieces.flatten.length) : behind = [] := by
  cases behind with
  | nil => rfl
  | cons c more =>
      exfalso
      -- With one more character there would be a longer literal.
      have hlonger : ∃ others last, List.flatten others ++ last = pieces.flatten ++ [c] ∧
          (∀ piece ∈ others, piece ∈ quoted) ∧ last ∈ ending := by
        by_cases hend : [c] ∈ ending
        · exact ⟨pieces, [c], rfl, hpieces, hend⟩
        · have hc : c ≠ '"' ∧ c ≠ '\\' := by simpa [mem_ending] using hend
          refine ⟨pieces ++ [[c]], [], by simp, ?_, mem_ending.mpr (.inl rfl)⟩
          intro piece hmem
          obtain hmem | hmem := List.mem_append.mp hmem
          · exact hpieces piece hmem
          · obtain rfl := List.mem_singleton.mp hmem
            exact mem_quoted.mpr (.inl ⟨c, hc.1, hc.2, rfl⟩)
      obtain ⟨others, last, htext, hothers, hlast⟩ := hlonger
      have hle : _ ≤ quotedLength (List.flatten others ++ last ++ more) :=
        length_le_quotedLength hothers hlast
      rw [htext, List.append_assoc, List.singleton_append, h] at hle
      simp at hle

theorem quotedAs_of_lexeme {word rest : List Char}
    (h : lexeme (word ++ rest) = (word.length, .string)) :
    ∃ pieces last, QuotedAs (String.ofList word) pieces last ∧ (last = [] → rest = []) := by
  have hkind : (lexeme (word ++ rest)).2 = .string := by rw [h]
  obtain ⟨hlength, hpos⟩ := lexeme_string hkind
  rw [h] at hlength
  have hquote : ∃ more, word ++ rest = '"' :: more := by
    unfold longest at hpos
    split at hpos <;> simp_all
  obtain ⟨more, htext⟩ := hquote
  rw [htext, longest] at hlength
  have hword : word = '"' :: more.take (quotedLength more) := by
    rw [← List.take_succ_cons, ← htext, ← hlength, List.take_left]
  have hrest : rest = more.drop (quotedLength more) := by
    rw [← List.drop_succ_cons, ← htext, ← hlength, List.drop_left]
  obtain ⟨pieces, last, htake, hpieces, hlast⟩ := take_quotedLength more
  refine ⟨pieces, last, ⟨?_, hpieces, hlast⟩, ?_⟩
  · rw [String.toList_ofList, hword, htake]
  · rintro rfl
    rw [List.append_nil] at htake
    apply behind_of_unended hpieces
    rw [hrest, ← htake, List.take_append_drop, List.length_take]
    have hle := quotedLength_le more
    omega

theorem Lexer.Scanned.quotedAs {offset : Nat} {text : List Char} {tokens : List Token}
    (h : Scanned offset text tokens) :
    ∀ token ∈ tokens, token.kind = .string → ∃ pieces last,
      QuotedAs token.literal pieces last ∧
        (last = [] → token.stop = offset + String.utf8Len text) := by
  induction h with
  | blanks hblank => simp
  | @token offset gap word rest kind tokens hgap hword hlexeme hrest ih =>
      rw [List.forall_mem_cons, utf8Len_whole]
      refine ⟨fun hkind => ?_, ih⟩
      obtain rfl : kind = .string := hkind
      obtain ⟨pieces, last, hquoted, hend⟩ := quotedAs_of_lexeme hlexeme
      refine ⟨pieces, last, hquoted, fun hlast => ?_⟩
      rw [Token.stop_eq, String.toList_ofList, hend hlast]
      simp

-- The content of a closed literal is what stands between its quotes, and that of a literal that
-- is not closed is the literal with its quote. But where the text ends behind a pair, the quote of
-- the pair is taken for a closing one.
theorem stringContent_of_mem_tokenize {source : String} {token : Token}
    (hmem : token ∈ tokenize source) (hkind : token.kind = .string) :
    ∃ pieces last, QuotedAs token.literal pieces last ∧
      (∀ others final, QuotedAs token.literal others final → others = pieces ∧ final = last) ∧
      (last = [] → token.stop = source.utf8ByteSize) ∧
      stringContent token.literal =
        if last = ['"'] then String.ofList pieces.flatten
        else if last = [] ∧ pieces.getLast? = some ['\\', '"'] then
          String.ofList pieces.flatten.dropLast
        else token.literal := by
  have hahead : token ∈ (Cursor.ofSource source).ahead := by
    obtain hahead | hend := List.mem_append.mp hmem
    · exact hahead
    · obtain rfl := List.mem_singleton.mp hend
      cases hkind
  obtain ⟨pieces, last, hquoted, hstop⟩ :=
    (Cursor.ofSource_scanned source).quotedAs token hahead hkind
  refine ⟨pieces, last, hquoted, fun others final h => hquoted.unique h, fun hlast => ?_,
    hquoted.stringContent_eq⟩
  rw [hstop hlast, Nat.zero_add, Cursor.utf8ByteSize_eq]

-- A literal that a backslash ends, behind a closed one.
theorem stringContent_of_mem_tokenize_broken :
    let token : Token := { kind := .string, start := 3, literal := "\"b\\" }
    token ∈ tokenize "\"a\"\"b\\n" ∧ ∃ pieces last, QuotedAs token.literal pieces last ∧
      (∀ others final, QuotedAs token.literal others final → others = pieces ∧ final = last) ∧
      (last = [] → token.stop = "\"a\"\"b\\n".utf8ByteSize) ∧
      stringContent token.literal =
        if last = ['"'] then String.ofList pieces.flatten
        else if last = [] ∧ pieces.getLast? = some ['\\', '"'] then
          String.ofList pieces.flatten.dropLast
        else token.literal := by
  intro token
  have hmem : token ∈ tokenize "\"a\"\"b\\n" := by decide +kernel
  exact ⟨hmem, stringContent_of_mem_tokenize hmem rfl⟩

-- The text ends behind a pair, so that nothing closes the literal. It loses its quotes all the
-- same.
theorem stringContent_behind_pair :
    let token : Token := { kind := .string, start := 0, literal := "\"a\\\"" }
    tokenize "\"a\\\"" = [token, endToken "\"a\\\""] ∧
      QuotedAs token.literal [['a'], ['\\', '"']] [] ∧
      stringContent token.literal = "a\\" ∧ stringContent token.literal ≠ token.literal := by
  refine ⟨by decide +kernel, ⟨by decide +kernel, ?_, mem_ending.mpr (.inl rfl)⟩, by decide +kernel,
    by decide +kernel⟩
  intro piece hmem
  obtain rfl | rfl : piece = ['a'] ∨ piece = ['\\', '"'] := by simpa using hmem
  · exact mem_quoted.mpr (.inl ⟨'a', by decide, by decide, rfl⟩)
  · exact mem_quoted.mpr (.inr rfl)

end Capuchin
