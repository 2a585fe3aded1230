import Capuchin.Proofs.Token.Places
import Capuchin.Syntax.Operator
import Mathlib

-- The literal of a token is that token again, wherever it is written.
namespace Capuchin

open Lexer Pattern

variable {token : Token}

-- Each kind stands in the table once.
theorem Pattern.shape_eq {rule other : Pattern × TokenKind} (hmem : rule ∈ table)
    (hother : other ∈ table) (h : other.2 = rule.2) : other.1 = rule.1 := by
  have hnodup : (table.map Prod.snd).Nodup := by decide
  rw [List.inj_on_of_nodup_map hnodup hother hmem h]

-- And so does each shape.
theorem Pattern.kind_eq {pattern : Pattern} {kind other : TokenKind}
    (hmem : (pattern, kind) ∈ table) (hother : (pattern, other) ∈ table) : kind = other := by
  have hnodup : (table.map Prod.fst).Nodup := by decide
  exact congrArg Prod.snd (List.inj_on_of_nodup_map hnodup hmem hother rfl)

-- A fixed word has one literal.
theorem Token.Lexed.literal_of_word {word : String} (h : token.Lexed)
    (hmem : (.word word, token.kind) ∈ table) : token.literal = word := by
  have hlegal : ∀ rule ∈ table, rule.2 ≠ .illegal := by decide
  obtain ⟨text, hkind, hliteral⟩ := h
  obtain ⟨hlength, hpos⟩ := lexeme_of_class (hlegal _ hmem)
    (fun rule hrule hk => shape_eq hmem hrule hk) hkind.symm
  rw [longest] at hlength hpos
  split at hpos
  · rename_i hbegins
    rw [if_pos hbegins] at hlength
    rw [hliteral, hlength, ← (List.prefix_iff_eq_take.mp (List.isPrefixOf_iff_prefix.mp hbegins)),
      String.ofList_toList]
  · omega

theorem BinaryOp.mem_table {kind : TokenKind} {op : BinaryOp} (h : ofToken? kind = some op) :
    (.word op.symbol, kind) ∈ table := by
  cases kind <;> simp only [ofToken?, Option.some.injEq, reduceCtorEq] at h <;> subst h <;> decide

theorem UnaryOp.mem_table {kind : TokenKind} {op : UnaryOp} (h : ofToken? kind = some op) :
    (.word op.symbol, kind) ∈ table := by
  cases kind <;> simp only [ofToken?, Option.some.injEq, reduceCtorEq] at h <;> subst h <;> decide

theorem Lexer.piece_of_lexed (h : token.Lexed) (hinner : token.kind = .string → token.Inner)
    (hk : token.kind ≠ .illegal) : Piece token.kind token.literal.toList := by
  have hrule : ∃ pattern, (pattern, token.kind) ∈ table := by
    obtain ⟨text, hkind, -⟩ := h
    obtain hillegal | ⟨rule, hmem, heq, -⟩ := lexeme_cases text
    · exact absurd (hkind.trans hillegal) hk
    · exact ⟨rule.1, by rwa [hkind, heq]⟩
  obtain ⟨pattern, hmem⟩ := hrule
  cases pattern with
  | word word =>
      rw [h.literal_of_word hmem]
      exact piece_of_word hmem
  | integer =>
      have hinteger : token.kind = .integer := by simpa [table] using hmem
      obtain ⟨hne, hdigits⟩ := h.integer_digits hinteger
      rw [hinteger]
      exact piece_of_digits hne hdigits
  | float =>
      have hfloat : token.kind = .float := by simpa [table] using hmem
      obtain ⟨whole, fraction, hliteral, hne, hwhole, hfraction⟩ := h.float_shape hfloat
      rw [hfloat, hliteral]
      exact piece_of_pointed hne hwhole hfraction
  | string =>
      have hstring : token.kind = .string := by simpa [table] using hmem
      rw [hstring]
      exact (piece_of_string (hinner hstring) hstring).1
  | identifier =>
      have hidentifier : token.kind = .identifier := by simpa [table] using hmem
      rw [hidentifier]
      exact (piece_of_identifier h hidentifier).1

end Capuchin
