import Capuchin.Proofs.Token.Places
import Mathlib

-- The tokens of two texts, one behind the other.
namespace Capuchin

namespace Pattern

variable {text more : List Char}

theorem quotedLength_le (text : List Char) : quotedLength text ≤ text.length := by
  induction text using quotedLength.induct <;> simp_all [quotedLength]

theorem longest_le_length (pattern : Pattern) (text : List Char) :
    pattern.longest text ≤ text.length := by
  unfold longest
  split
  · split
    · rename_i hbegins
      exact (List.isPrefixOf_iff_prefix.mp hbegins).length_le
    · exact Nat.zero_le _
  · exact digitCount_le text
  · split
    · exact Nat.zero_le _
    · rename_i rest hrest _
      have hdigits := digitCount_le rest
      have hlength := congrArg List.length hrest
      simp only [List.length_drop, List.length_cons] at hlength
      omega
    · exact Nat.zero_le _
  · simpa using quotedLength_le _
  · exact Nat.zero_le _
  · split
    · simpa using (List.takeWhile_prefix _).length_le
    · exact Nat.zero_le _
  · exact Nat.zero_le _

-- What ends in front of the end of a text ends there too if the text goes on.

theorem takeWhile_within {p : Char → Bool} (h : (text.takeWhile p).length < text.length) :
    (text ++ more).takeWhile p = text.takeWhile p := by
  rw [List.takeWhile_append, if_neg (Nat.ne_of_lt h)]

theorem digitCount_within (h : digitCount text < text.length) :
    digitCount (text ++ more) = digitCount text :=
  congrArg List.length (takeWhile_within h)

theorem quotedLength_within (h : quotedLength text < text.length) :
    quotedLength (text ++ more) = quotedLength text := by
  induction text using quotedLength.induct with
  | case1 => simp at h
  | case2 => simp [quotedLength]
  | case3 rest ih =>
      simp only [quotedLength, List.length_cons, Nat.add_lt_add_iff_right] at h
      simp only [List.cons_append, quotedLength, ih h]
  | case4 rest hrest =>
      -- The backslash is not the last character, so the one behind it decides.
      obtain _ | ⟨d, rest⟩ := rest
      · simp [quotedLength] at h
      · have hd : d ≠ '"' := fun heq => hrest rest (by rw [heq])
        simp [quotedLength, hd]
  | case5 c rest hquote _ hslash ih =>
      have hnot : ∀ behind tail, c = '\\' → behind = '"' :: tail → False :=
        fun _ _ heq => absurd heq hslash
      rw [quotedLength.eq_5 _ _ hquote (hnot _) hslash, List.length_cons,
        Nat.add_lt_add_iff_right] at h
      rw [List.cons_append, quotedLength.eq_5 _ _ hquote (hnot _) hslash,
        quotedLength.eq_5 _ _ hquote (hnot _) hslash, ih h]

theorem longest_float_within (hdigits : digitCount text < text.length)
    (h : longest .float text < text.length) :
    longest .float (text ++ more) = longest .float text := by
  obtain ⟨c, rest, hrest⟩ := List.exists_cons_of_length_pos (l := text.drop (digitCount text))
    (by rw [List.length_drop]; omega)
  have hlength := congrArg List.length hrest
  simp only [List.length_drop, List.length_cons] at hlength
  have hbehind : (text ++ more).drop (digitCount text) = c :: (rest ++ more) := by
    rw [List.drop_append_of_le_length hdigits.le, hrest, List.cons_append]
  simp only [longest, digitCount_within hdigits, hbehind, hrest] at h ⊢
  by_cases hzero : digitCount text = 0
  · simp only [hzero]
  · by_cases hpoint : c = '.'
    · subst hpoint
      simp only at h ⊢
      rw [digitCount_within (by omega)]
    · simp [hpoint]

theorem longest_identifier_within (h : longest .identifier text < text.length) :
    longest .identifier (text ++ more) = longest .identifier text := by
  obtain _ | ⟨c, rest⟩ := text
  · simp at h
  · simp only [List.cons_append, longest] at h ⊢
    split
    · rename_i hc
      rw [if_pos hc, List.length_cons, Nat.add_lt_add_iff_right] at h
      rw [takeWhile_within h]
    · rfl

theorem longest_string_within (h : longest .string text < text.length) :
    longest .string (text ++ more) = longest .string text := by
  obtain _ | ⟨c, rest⟩ := text
  · simp at h
  · by_cases hquote : c = '"'
    · subst hquote
      rw [longest, List.length_cons, Nat.add_lt_add_iff_right] at h
      rw [List.cons_append, longest, longest, quotedLength_within h]
    · rw [List.cons_append, longest_string_of_head hquote, longest_string_of_head hquote]

-- A text that is the beginning of a longer word of the language is an identifier.
theorem longest_identifier_of_begins {word : String} {kind : TokenKind}
    (hmem : (.word word, kind) ∈ table) (hlength : 1 < text.length)
    (hbegins : text <+: word.toList) (hlong : text.length < word.toList.length) :
    longest .identifier text = text.length := by
  have htable : ∀ rule ∈ table, rule.1.letters.length ≤ 2 ∨
      rule.1.letters.head?.any isIdentifierStart ∧ rule.1.letters.all isIdentifierPart := by decide
  obtain hshort | ⟨hfirst, hparts⟩ := htable _ hmem
  · rw [letters] at hshort
    omega
  · rw [letters] at hfirst hparts
    obtain ⟨behind, hword⟩ := hbegins
    rw [← hword] at hfirst hparts
    obtain ⟨c, rest, rfl⟩ := List.exists_cons_of_length_pos (l := text) (by omega)
    simp only [List.cons_append, List.head?_cons, Option.any_some] at hfirst
    simp only [List.cons_append, List.all_cons, List.all_append, Bool.and_eq_true,
      List.all_eq_true] at hparts
    rw [longest, if_pos hfirst, List.takeWhile_eq_self_iff.mpr hparts.2.1, List.length_cons]

theorem longest_word_within {word : String} {kind : TokenKind}
    (hmem : (.word word, kind) ∈ table) (hlength : 1 < text.length)
    (h : longest .identifier text < text.length) :
    longest (.word word) (text ++ more) = longest (.word word) text := by
  have hiff : word.toList <+: text ++ more ↔ word.toList <+: text := by
    refine ⟨fun hbegins => ?_, fun hbegins => hbegins.trans (List.prefix_append text more)⟩
    obtain hlong | hshort := Nat.lt_or_ge text.length word.toList.length
    · have hbegin := List.prefix_of_prefix_length_le (List.prefix_append text more) hbegins hlong.le
      exact absurd (longest_identifier_of_begins hmem hlength hbegin hlong) (Nat.ne_of_lt h)
    · exact List.prefix_of_prefix_length_le hbegins (List.prefix_append text more) hshort
  simp only [longest, List.isPrefixOf_iff_prefix, hiff]

theorem best_within (hlength : 1 < text.length) (h : (best text table).1 < text.length) :
    best (text ++ more) table = best text table := by
  have hle : ∀ rule ∈ table, rule.1.longest text < text.length := fun rule hmem =>
    Nat.lt_of_le_of_lt (longest_le_best text hmem) h
  have hdigits : digitCount text < text.length := hle (.integer, .integer) (by decide)
  apply best_congr
  rintro ⟨pattern, kind⟩ hmem
  have hlt := hle _ hmem
  cases pattern with
  | word word => exact longest_word_within hmem hlength (hle (.identifier, .identifier) (by decide))
  | integer => exact digitCount_within hdigits
  | float => exact longest_float_within hdigits hlt
  | string => exact longest_string_within hlt
  | identifier => exact longest_identifier_within hlt

end Pattern

namespace Lexer

open Pattern

variable {text more : List Char}

theorem lexeme_fst (text : List Char) : (lexeme text).1 = max 1 (best text table).1 := by
  unfold lexeme
  split
  · rename_i heq
    rw [heq]
    rfl
  · rename_i length hzero heq
    have hpos : length ≠ 0 := hzero
    rw [heq]
    simp only
    omega
  · rename_i hne _
    have hpos : (best text table).1 ≠ 0 := fun hzero => hne _ (Prod.ext hzero rfl)
    omega

theorem best_le_length (text : List Char) : (best text table).1 ≤ text.length := by
  obtain hnone | ⟨rule, -, hrule, -⟩ := best_cases text table
  · rw [hnone]
    exact Nat.zero_le _
  · rw [hrule]
    exact longest_le_length rule.1 text

theorem lexeme_le_length (hne : text ≠ []) : (lexeme text).1 ≤ text.length := by
  have hpos := List.length_pos_iff.mpr hne
  have hle := best_le_length text
  rw [lexeme_fst]
  omega

-- A lexeme takes at least a character, and none that is not there.
theorem lexeme_split (c : Char) (text : List Char) :
    ∃ word rest kind, text = word ++ rest ∧
      lexeme (c :: word ++ rest) = ((c :: word).length, kind) := by
  have hle : (lexeme (c :: text)).1 ≤ text.length + 1 := lexeme_le_length (by simp)
  have hpos : 1 ≤ (lexeme (c :: text)).1 := by
    rw [lexeme_fst]
    omega
  obtain ⟨count, hcount⟩ := Nat.exists_eq_add_of_le' hpos
  refine ⟨text.take count, text.drop count, (lexeme (c :: text)).2,
    (List.take_append_drop count text).symm, ?_⟩
  have hlength : (c :: text.take count).length = (lexeme (c :: text)).1 := by
    rw [List.length_cons, List.length_take]
    omega
  rw [List.cons_append, List.take_append_drop, hlength]

-- A token with something behind it does not change when the text goes on.
theorem lexeme_within (h : (lexeme text).1 < text.length) :
    lexeme (text ++ more) = lexeme text := by
  have hfst := lexeme_fst text
  have hbest : best (text ++ more) table = best text table := best_within (by omega) (by omega)
  rw [lexeme, lexeme, hbest]
  split
  · rfl
  · rename_i length _ heq
    rw [heq] at hfst
    simp only at hfst
    have hbehind : ((text ++ more).drop length).head? = (text.drop length).head? := by
      rw [List.drop_append_of_le_length (by omega), List.head?_append_of_ne_nil]
      exact fun hnil => by simp at hnil; omega
    rw [hbehind]
  · rfl

-- Nor does one of the marks that end statements.
theorem lexeme_closing {c : Char} {rest : List Char}
    (hk : (lexeme (c :: rest)).2 = .semiColon ∨ (lexeme (c :: rest)).2 = .closeBrace) :
    lexeme (c :: rest ++ more) = lexeme (c :: rest) := by
  have hmark : ∀ kind, (lexeme (c :: rest)).2 = kind → (c, kind) ∈ marks →
      lexeme (c :: rest ++ more) = lexeme (c :: rest) := by
    intro kind _ hmem
    rw [List.cons_append, (lexeme_symbol (isSymbol_of_mark hmem) (by simp)).1,
      (lexeme_symbol (isSymbol_of_mark hmem) (by simp)).1]
  obtain hk | hk := hk
  · have htable : ∀ rule ∈ table, rule.2 = .semiColon → rule.1 = .word ";" := by decide
    have hpos := (lexeme_of_class (by decide) htable hk).2
    by_cases hc : c = ';'
    · exact hmark _ hk (by rw [hc]; decide)
    · rw [longest_word_of_head (by simpa using Ne.symm hc)] at hpos
      omega
  · have htable : ∀ rule ∈ table, rule.2 = .closeBrace → rule.1 = .word "\x7d" := by decide
    have hpos := (lexeme_of_class (by decide) htable hk).2
    by_cases hc : c = '\x7d'
    · exact hmark _ hk (by rw [hc]; decide)
    · rw [longest_word_of_head (by simpa using Ne.symm hc)] at hpos
      omega

-- Where the last token of a text ends a statement, what stands behind it is read on its own.
theorem tokensFrom_append {offset inside : Nat} (hinside : inside ≤ text.length)
    (hlast : ∀ token ∈ (tokensFrom offset inside text).getLast?,
      token.kind = .semiColon ∨ token.kind = .closeBrace) :
    tokensFrom offset inside (text ++ more) =
      tokensFrom offset inside text ++ tokensFrom (offset + String.utf8Len text) 0 more := by
  induction text generalizing offset inside with
  | nil =>
      obtain rfl := Nat.le_zero.mp hinside
      rfl
  | cons c rest ih =>
      have hbytes : offset + String.utf8Len (c :: rest) =
          offset + c.utf8Size + String.utf8Len rest := by
        rw [String.utf8Len_cons]
        omega
      rw [hbytes]
      cases inside with
      | succ inside => exact ih (Nat.le_of_succ_le_succ hinside) hlast
      | zero =>
          by_cases hblank : Text.isBlank c
          · rw [tokensFrom_blank hblank] at hlast
            rw [List.cons_append, tokensFrom_blank hblank, tokensFrom_blank hblank]
            exact ih (Nat.zero_le _) hlast
          · have hvisible : Text.isBlank c = false := by simpa using hblank
            rw [tokensFrom_visible hvisible] at hlast
            have hle : (lexeme (c :: rest)).1 ≤ rest.length + 1 := lexeme_le_length (by simp)
            have hlexeme : lexeme (c :: rest ++ more) = lexeme (c :: rest) := by
              by_cases hlt : (lexeme (c :: rest)).1 < (c :: rest).length
              · exact lexeme_within hlt
              · rw [List.length_cons] at hlt
                rw [tokensFrom_of_length_le (by omega)] at hlast
                exact lexeme_closing (hlast _ rfl)
            have hlater := @ih (offset + c.utf8Size) ((lexeme (c :: rest)).1 - 1) (by omega)
              fun token htoken =>
                hlast token (by simp [List.getLast?_cons, Option.mem_def.mp htoken])
            rw [List.cons_append, tokensFrom_visible hvisible, tokensFrom_visible hvisible,
              ← List.cons_append, hlexeme, hlater,
              List.take_append_of_le_length (by simpa using hle)]
            rfl

-- White space in front of a text only moves its tokens.
theorem tokensFrom_blanks {offset : Nat} (h : ∀ c ∈ text, Text.isBlank c) :
    tokensFrom offset 0 (text ++ more) = tokensFrom (offset + String.utf8Len text) 0 more := by
  induction text generalizing offset with
  | nil => rfl
  | cons c rest ih =>
      rw [List.forall_mem_cons] at h
      rw [List.cons_append, tokensFrom_blank h.1, ih h.2, String.utf8Len_cons, Nat.add_assoc,
        Nat.add_comm c.utf8Size]

end Lexer

-- A token of a text behind a number of bytes.
def Token.shift (count : Nat) (token : Token) : Token := { token with start := count + token.start }

theorem Lexer.tokensFrom_shift (count offset inside : Nat) (text : List Char) :
    tokensFrom (count + offset) inside text =
      (tokensFrom offset inside text).map (Token.shift count) := by
  induction text generalizing offset inside with
  | nil => rfl
  | cons c rest ih =>
      cases inside with
      | succ inside =>
          rw [tokensFrom, tokensFrom, Nat.add_assoc]
          exact ih _ _
      | zero =>
          by_cases hblank : Text.isBlank c
          · rw [tokensFrom_blank hblank, tokensFrom_blank hblank, Nat.add_assoc]
            exact ih _ _
          · have hvisible : Text.isBlank c = false := by simpa using hblank
            rw [tokensFrom_visible hvisible, tokensFrom_visible hvisible, Nat.add_assoc, ih]
            rfl

namespace Cursor

-- The tokens of a cursor moved behind a number of bytes.
def shift (count : Nat) (cursor : Cursor) : Cursor where
  ahead := cursor.ahead.map (Token.shift count)
  stop := count + cursor.stop

-- The tokens of one cursor with those of another behind them.
def onto (cursor later : Cursor) : Cursor where
  ahead := cursor.ahead ++ later.ahead
  stop := later.stop

theorem utf8ByteSize_eq (source : String) :
    source.utf8ByteSize = String.utf8Len source.toList := by
  rw [← String.utf8ByteSize_ofList, String.ofList_toList]

theorem ofSource_append {first second : String}
    (hlast : ∀ token ∈ (ofSource first).ahead.getLast?,
      token.kind = .semiColon ∨ token.kind = .closeBrace) :
    ofSource (first ++ second) =
      (ofSource first).onto ((ofSource second).shift first.utf8ByteSize) := by
  have hsecond := Lexer.tokensFrom_shift first.utf8ByteSize 0 0 second.toList
  have hwhole : Lexer.tokensFrom 0 0 (first ++ second).toList =
      Lexer.tokensFrom 0 0 first.toList ++
        (Lexer.tokensFrom 0 0 second.toList).map (Token.shift first.utf8ByteSize) := by
    rw [String.toList_append, Lexer.tokensFrom_append (Nat.zero_le _) hlast, Nat.zero_add,
      ← utf8ByteSize_eq, ← hsecond, Nat.add_zero]
  rw [ofSource, onto, hwhole, String.utf8ByteSize_append]
  rfl

theorem ofSource_blanks {blanks : String} (source : String)
    (h : ∀ c ∈ blanks.toList, Text.isBlank c) :
    ofSource (blanks ++ source) = (ofSource source).shift blanks.utf8ByteSize := by
  have hahead := Lexer.tokensFrom_shift blanks.utf8ByteSize 0 0 source.toList
  rw [ofSource, String.toList_append, Lexer.tokensFrom_blanks h, Nat.zero_add, ← utf8ByteSize_eq,
    ← Nat.add_zero blanks.utf8ByteSize, hahead, String.utf8ByteSize_append]
  rfl

end Cursor

end Capuchin
