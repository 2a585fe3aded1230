import Capuchin.Proofs.Syntax.Likeness
import Capuchin.Proofs.Token.Literals
import Capuchin.Proofs.Token.Scanning
import Mathlib

-- The white space between the tokens of a source says nothing.
namespace Capuchin

open Lexer Pattern

-- White space to put in front of tokens, some in front of each but the first.
structure Spacing (gaps : List String) : Prop where
  blank : ∀ gap ∈ gaps, ∀ c ∈ gap.toList, Text.isBlank c
  between : ∀ gap ∈ gaps.tail, gap ≠ ""

theorem Spacing.tail {gap : String} {gaps : List String} (hgaps : Spacing (gap :: gaps)) :
    Spacing gaps where
  blank other hmem := hgaps.blank other (List.mem_cons_of_mem _ hmem)
  between other hmem := hgaps.between other (List.mem_of_mem_tail hmem)

-- The literals of tokens, with a text in front of each.
def respace (gaps : List String) (tokens : List Token) : String :=
  String.join (List.zipWith (fun gap token => gap ++ token.literal) gaps tokens)

theorem respace_cons (gap : String) (gaps : List String) (token : Token) (tokens : List Token) :
    (respace (gap :: gaps) (token :: tokens)).toList =
      gap.toList ++ (token.literal.toList ++ (respace gaps tokens).toList) := by
  rw [respace, List.zipWith_cons_cons, String.join_cons, String.toList_append,
    String.toList_append, List.append_assoc]
  rfl

-- Tokens for which there is no text are left out.
theorem respace_append {gaps : List String} {tokens : List Token} (later : List Token)
    (h : gaps.length = tokens.length) : respace gaps (tokens ++ later) = respace gaps tokens := by
  have hzip : List.zipWith (fun gap (token : Token) => gap ++ token.literal) (gaps ++ [])
      (tokens ++ later) = _ := List.zipWith_append h
  rw [List.append_nil, List.zipWith_nil_left, List.append_nil] at hzip
  rw [respace, hzip, respace]

namespace Lexer

section Blanks

variable {c : Char} {word rest : List Char} {kind : TokenKind} (hc : Text.isBlank c)

include hc in
theorem not_isDigit_of_isBlank : c.isDigit = false := by
  rw [Bool.eq_false_iff]
  intro hdigit
  simp [isBlank_of_isDigit hdigit] at hc

include hc in
theorem not_isIdentifierPart_of_isBlank : isIdentifierPart c = false := by
  rw [isIdentifierPart, not_isDigit_of_isBlank hc, Bool.or_false, Bool.eq_false_iff]
  intro hstart
  simp [isBlank_of_isIdentifierStart hstart] at hc

include hc in
theorem ne_of_isBlank {other : Char} (h : Text.isBlank other = false) : c ≠ other := by
  rintro rfl
  simp [h] at hc

include hc in
theorem stops_blank (word rest : List Char) : Stops word (c :: rest) := by
  have htable : ∀ rule ∈ table, rule.1.letters.all fun c => !Text.isBlank c := by decide
  intro other hother
  obtain rfl : c = other := by simpa using hother
  refine ⟨?_, fun _ _ _ => not_isIdentifierPart_of_isBlank hc⟩
  rintro rule hmem ⟨behind, hletters⟩
  have hnot := List.all_eq_true.mp (htable rule hmem) c (by simp [← hletters])
  simp [hc] at hnot

include hc in
theorem digitCount_blank (word rest : List Char) :
    digitCount (word ++ c :: rest) = digitCount word := by
  have hword : (word ++ c :: rest).takeWhile Char.isDigit =
      (word ++ []).takeWhile Char.isDigit := by
    apply takeWhile_exchange
    · rw [List.append_nil]
      exact digitCount_le word
    · simpa using not_isDigit_of_isBlank hc
  rw [digitCount, hword, List.append_nil, digitCount]

include hc in
theorem longest_float_blank (word rest : List Char) :
    longest .float (word ++ c :: rest) = longest .float word := by
  have hdrop : (word ++ c :: rest).drop (digitCount word) =
      word.drop (digitCount word) ++ c :: rest := List.drop_append_of_le_length (digitCount_le word)
  have hpoint : c ≠ '.' := ne_of_isBlank hc (by decide)
  rw [longest, longest, digitCount_blank hc, hdrop]
  cases digitCount word with
  | zero => rfl
  | succ count =>
      cases word.drop (count + 1) with
      | nil => simp [hpoint]
      | cons first more =>
          by_cases hfirst : first = '.'
          · simp [hfirst, digitCount_blank hc]
          · simp [hfirst]

-- White space is no part of a token, unless it is a string.
include hc in
theorem longest_blank {rule : Pattern × TokenKind} (hmem : rule ∈ table)
    (hstring : rule.1 ≠ .string) (hne : word ≠ []) (rest : List Char) :
    rule.1.longest (word ++ c :: rest) = rule.1.longest word := by
  have hle : rule.1.longest (word ++ []) ≤ word.length := by
    rw [List.append_nil]
    exact longest_le_length rule.1 word
  obtain ⟨pattern, kind⟩ := rule
  cases pattern with
  | word text =>
      have hword := longest_word_exchange hmem (stops_blank hc word rest) hle
      rwa [List.append_nil] at hword
  | integer => exact digitCount_blank hc word rest
  | float => exact longest_float_blank hc word rest
  | string => contradiction
  | identifier =>
      have hword := longest_identifier_exchange hne (stops_blank hc word rest) hle
      rwa [List.append_nil] at hword

-- What begins with a quote is a string.
theorem quotedLength_of_lexeme (hk : kind ≠ .illegal)
    (h : lexeme ('"' :: word ++ rest) = (('"' :: word).length, kind)) :
    quotedLength (word ++ rest) = word.length := by
  have htable : ∀ rule ∈ table, rule.1 = .string → rule.2 = .string := by decide
  have hkind : (lexeme ('"' :: word ++ rest)).2 = .string := by
    obtain hillegal | ⟨rule, hmem, hrule, hpos⟩ := lexeme_cases ('"' :: word ++ rest)
    · rw [h] at hillegal
      contradiction
    · by_cases hstring : rule.1 = .string
      · rw [hrule]
        exact htable rule hmem hstring
      · rw [List.cons_append, longest_of_quote hmem hstring] at hpos
        contradiction
  have hlength := (lexeme_string hkind).1
  rw [h, List.cons_append, longest] at hlength
  simpa using hlength.symm

-- A string that ends in front of a space ends in front of all white space.
include hc in
theorem Piece.longest_string_blank (hp : Piece kind word) (hk : kind ≠ .illegal)
    (rest : List Char) : longest .string (word ++ c :: rest) = longest .string word := by
  obtain ⟨⟨first, more, rfl, -⟩, hlexeme⟩ := hp
  by_cases hquote : first = '"'
  · subst hquote
    have halone := quotedLength_of_lexeme hk (hlexeme [] .nil)
    have hspace := quotedLength_of_lexeme hk (hlexeme [' '] (.cons (by decide) []))
    have hblank : (c :: rest).head? ≠ some '"' := by
      simpa using ne_of_isBlank hc (by decide)
    rw [List.append_nil] at halone
    rw [List.cons_append, longest, longest, halone, quotedLength_exchange hspace hblank]
  · rw [List.cons_append, longest_string_of_head hquote, longest_string_of_head hquote]

-- So a token that is found in front of a space is found in front of all white space.
include hc in
theorem Piece.lexeme_blank (hp : Piece kind word) (hk : kind ≠ .illegal) (rest : List Char) :
    Lexer.lexeme (word ++ c :: rest) = (word.length, kind) := by
  obtain ⟨first, more, hword, -⟩ := hp.visible
  have hne : word ≠ [] := by simp [hword]
  have halone := hp.lexeme [] .nil
  rw [List.append_nil] at halone
  obtain ⟨hbest, hpos⟩ := best_of_lexeme halone hk
  have hsame : best (word ++ c :: rest) table = best word table := by
    apply best_congr
    intro rule hmem
    by_cases hstring : rule.1 = .string
    · rw [hstring]
      exact hp.longest_string_blank hc hk rest
    · exact longest_blank hc hmem hstring hne rest
  rw [hbest] at hsame
  by_cases hfloat : kind = .float
  · subst hfloat
    apply lexeme_of_best_float hsame hpos
    rw [List.drop_left]
    simpa using ne_of_isBlank hc (by decide)
  · exact lexeme_of_best hsame hpos hfloat

end Blanks

section Respacing

variable {gap : String} {gaps : List String} {tokens : List Token}

theorem shapes_blanks {blanks : List Char} (h : ∀ c ∈ blanks, Text.isBlank c)
    (text : List Char) : shapes (blanks ++ text) = shapes text := by
  rw [shapes, tokensFrom_blanks h, map_shape_tokensFrom, List.drop_zero]

-- A token in front of white space or the end was not cut off where it was found: only a string is
-- ever cut off, and then it is the last token.
theorem lexeme_respaced {word rest tail : List Char} {kind : TokenKind}
    (h : lexeme (word ++ rest) = (word.length, kind)) (hk : kind ≠ .illegal)
    (hlast : rest = [] → tail = []) (hblank : ∀ c ∈ tail.head?, Text.isBlank c) :
    lexeme (word ++ tail) = (word.length, kind) := by
  by_cases hrest : rest = []
  · rw [hlast hrest, ← hrest]
    exact h
  · have hlength : (lexeme (word ++ rest)).1 < (word ++ rest).length := by
      have hpos := List.length_pos_iff.mpr hrest
      rw [h, List.length_append]
      omega
    have hliteral : String.ofList word =
        String.ofList ((word ++ rest).take (lexeme (word ++ rest)).1) := by
      rw [h, List.take_left]
    have hlexed : Token.Lexed ⟨kind, 0, String.ofList word⟩ := ⟨word ++ rest, by rw [h], hliteral⟩
    have hpiece : Piece kind (String.ofList word).toList :=
      piece_of_lexed hlexed (fun _ => ⟨word ++ rest, by rw [h], hliteral, hlength⟩) hk
    rw [String.toList_ofList] at hpiece
    cases tail with
    | nil => exact hpiece.lexeme [] .nil
    | cons c tail => exact hpiece.lexeme_blank (hblank c rfl) hk tail

theorem respace_head (hgaps : Spacing (gap :: gaps)) :
    ∀ c ∈ (respace gaps tokens).toList.head?, Text.isBlank c := by
  cases gaps with
  | nil => simp [respace]
  | cons next gaps =>
      cases tokens with
      | nil => simp [respace]
      | cons token tokens =>
          have hne : next.toList ≠ [] := by simpa using hgaps.between next (by simp)
          obtain ⟨first, more, hnext⟩ := List.exists_cons_of_ne_nil hne
          have hfirst := hgaps.blank next (by simp) first (by simp [hnext])
          rw [respace_cons, hnext]
          simpa using hfirst

theorem Scanned.eq_nil {offset : Nat} {text : List Char} (h : Scanned offset text tokens)
    (hnil : text = []) : tokens = [] := by
  cases h with
  | blanks _ => rfl
  | token _ hword _ _ =>
      obtain ⟨c, more, rfl, -⟩ := hword
      simp at hnil

-- Spaced anew, the tokens of a text are found again. The induction is on the scan of the text.
theorem Scanned.shapes_respace {offset : Nat} {text : List Char} (h : Scanned offset text tokens)
    (hlegal : ∀ token ∈ tokens, token.kind ≠ .illegal) (hgaps : Spacing gaps)
    (hlength : gaps.length = tokens.length) :
    shapes (respace gaps tokens).toList = tokens.map Token.shape := by
  induction h generalizing gaps with
  | blanks _ => simp [respace, shapes, tokensFrom]
  | @token offset _ word rest kind tokens _ hword hlexeme hrest ih =>
      obtain ⟨hk, hrestlegal⟩ := List.forall_mem_cons.mp hlegal
      cases gaps with
      | nil => simp at hlength
      | cons gap gaps =>
          have hlater : gaps.length = tokens.length := by simpa using hlength
          have hlast : rest = [] → (respace gaps tokens).toList = [] := by
            intro hnil
            obtain rfl := hrest.eq_nil hnil
            obtain rfl : gaps = [] := List.eq_nil_of_length_eq_zero hlater
            rfl
          have hfound := lexeme_respaced hlexeme hk hlast (respace_head hgaps)
          obtain ⟨c, more, rfl, hvisible⟩ := hword
          rw [respace_cons, shapes_blanks (hgaps.blank gap List.mem_cons_self),
            String.toList_ofList, shapes_token hfound hvisible, ih hrestlegal hgaps.tail hlater]
          rfl

end Respacing

end Lexer

-- Any white space may stand between the tokens of a source. It is read as the same tokens, and so
-- as the same program, with the same objections to the same tokens.
theorem parse_respace {source : String} {gaps : List String}
    (hlegal : ∀ token ∈ tokenize source, token.kind ≠ .illegal) (hgaps : Spacing gaps)
    (hlength : gaps.length + 1 = (tokenize source).length) :
    (tokenize (respace gaps (tokenize source))).map Token.shape =
        (tokenize source).map Token.shape ∧
      (parse (respace gaps (tokenize source))).program = (parse source).program ∧
      List.Forall₂ (Diagnostic.Alike .shape)
        (parse (respace gaps (tokenize source))).diagnostics (parse source).diagnostics := by
  have hproper : gaps.length = (Cursor.ofSource source).ahead.length := by
    simpa [tokenize, Cursor.toList] using hlength
  have hrespace : respace gaps (tokenize source) = respace gaps (Cursor.ofSource source).ahead :=
    respace_append _ hproper
  have hshapes := (Cursor.ofSource_scanned source).shapes_respace
    (fun token hmem => hlegal token (List.mem_append_left _ hmem)) hgaps hproper
  rw [hrespace]
  have halike : (Cursor.ofSource (respace gaps (Cursor.ofSource source).ahead)).Alike .shape
      (Cursor.ofSource source) := Cursor.alike_of_shapes hshapes
  obtain ⟨hprogram, -, hdiagnostics⟩ := Cursor.parse_alike halike
  refine ⟨?_, hprogram, hdiagnostics⟩
  rw [tokenize, tokenize, Cursor.toList, Cursor.toList, List.map_append, List.map_append]
  exact congrArg₂ _ hshapes (congrArg (fun shape => [shape]) halike.finish)

-- Strings that a backslash or the end cuts off, a number behind a letter and one behind a string,
-- operators that go together, and no space between any of them.
theorem parse_respace_dense :
    (∀ token ∈ tokenize "x1=\"a\\2.5!==\"z", token.kind ≠ .illegal) ∧
      Spacing ["", " ", "\n", "\t", "\u00a0", "\u3000", "\r\n"] ∧
      (tokenize "x1=\"a\\2.5!==\"z").length = 8 ∧
      (tokenize (respace ["", " ", "\n", "\t", "\u00a0", "\u3000", "\r\n"]
        (tokenize "x1=\"a\\2.5!==\"z"))).map Token.shape =
          (tokenize "x1=\"a\\2.5!==\"z").map Token.shape ∧
      (parse (respace ["", " ", "\n", "\t", "\u00a0", "\u3000", "\r\n"]
        (tokenize "x1=\"a\\2.5!==\"z"))).program = (parse "x1=\"a\\2.5!==\"z").program ∧
      List.Forall₂ (Diagnostic.Alike .shape)
        (parse (respace ["", " ", "\n", "\t", "\u00a0", "\u3000", "\r\n"]
          (tokenize "x1=\"a\\2.5!==\"z"))).diagnostics
        (parse "x1=\"a\\2.5!==\"z").diagnostics := by
  have hlegal : ∀ token ∈ tokenize "x1=\"a\\2.5!==\"z", token.kind ≠ .illegal := by decide +kernel
  have hgaps : Spacing ["", " ", "\n", "\t", "\u00a0", "\u3000", "\r\n"] :=
    ⟨by simp [Text.isBlank, Text.blankRanges], by simp⟩
  have hlength : (tokenize "x1=\"a\\2.5!==\"z").length = 8 := by decide +kernel
  exact ⟨hlegal, hgaps, hlength, parse_respace hlegal hgaps hlength.symm⟩

-- A number that runs into a second point is illegal, and with a space between them it is none.
example : (tokenize "1.2.").map Token.kind = [.illegal, .illegal, .eof] ∧
    (tokenize (respace ["", " "] (tokenize "1.2."))).map Token.kind =
      [.float, .illegal, .eof] := by
  decide +kernel

end Capuchin
