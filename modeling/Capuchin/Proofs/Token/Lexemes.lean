import Capuchin.Proofs.Number.ReadBack
import Capuchin.Token.Lexer
import Mathlib.Data.List.Induction
import Mathlib.Data.List.TakeWhile

namespace Capuchin

namespace Pattern

theorem best_concat (text : List Char) (rules : List (Pattern × TokenKind))
    (rule : Pattern × TokenKind) :
    best text (rules ++ [rule]) =
      if (best text rules).1 < rule.1.longest text then (rule.1.longest text, rule.2)
      else best text rules := by
  rw [best, List.foldl_append]
  rfl

-- What is found comes from a rule.
theorem best_cases (text : List Char) (rules : List (Pattern × TokenKind)) :
    best text rules = (0, .illegal) ∨
      ∃ rule ∈ rules, best text rules = (rule.1.longest text, rule.2) ∧
        0 < rule.1.longest text := by
  induction rules using List.reverseRecOn with
  | nil => exact .inl rfl
  | append_singleton rules rule ih =>
      rw [best_concat]
      split
      · exact .inr ⟨rule, by simp, rfl, by omega⟩
      · obtain hnone | ⟨other, hmem, heq, hpos⟩ := ih
        · exact .inl hnone
        · exact .inr ⟨other, by simp [hmem], heq, hpos⟩

-- No rule finds more.
theorem longest_le_best (text : List Char) {rules : List (Pattern × TokenKind)}
    {rule : Pattern × TokenKind} (h : rule ∈ rules) :
    rule.1.longest text ≤ (best text rules).1 := by
  induction rules using List.reverseRecOn with
  | nil => simp at h
  | append_singleton rules last ih =>
      rw [best_concat]
      rw [List.mem_append, List.mem_singleton] at h
      obtain hmem | rfl := h
      · have hle := ih hmem
        split
        · simp only
          omega
        · exact hle
      · split
        · exact Nat.le_refl _
        · omega

-- A rule that finds more than all others decides.
theorem best_of_most (text : List Char) {rules : List (Pattern × TokenKind)}
    (rule : Pattern × TokenKind) (hmem : rule ∈ rules) (hpos : 0 < rule.1.longest text)
    (hmost : ∀ other ∈ rules, other ≠ rule → other.1.longest text < rule.1.longest text) :
    best text rules = (rule.1.longest text, rule.2) := by
  have hle := longest_le_best text hmem
  obtain hnone | ⟨other, hother, heq, -⟩ := best_cases text rules
  · rw [hnone] at hle
    omega
  · by_cases hsame : other = rule
    · rw [heq, hsame]
    · have hlt := hmost other hother hsame
      rw [heq] at hle
      omega

theorem digitCount_le (text : List Char) : digitCount text ≤ text.length :=
  (List.takeWhile_prefix _).length_le

theorem take_digitCount (text : List Char) :
    text.take (digitCount text) = text.takeWhile Char.isDigit :=
  (List.prefix_iff_eq_take.mp (List.takeWhile_prefix _)).symm

theorem digitCount_append {digits rest : List Char} (h : ∀ c ∈ digits, c.isDigit) :
    digitCount (digits ++ rest) = digits.length + digitCount rest := by
  rw [digitCount, List.takeWhile_append_of_pos h, List.length_append]
  rfl

theorem longest_float_pointed {whole rest : List Char} (hne : whole ≠ [])
    (h : ∀ c ∈ whole, c.isDigit) :
    longest .float (whole ++ '.' :: rest) = whole.length + 1 + digitCount rest := by
  have hcount : digitCount (whole ++ '.' :: rest) = whole.length := by
    rw [digitCount_append h]
    simp [digitCount]
  obtain ⟨c, whole, rfl⟩ := List.exists_cons_of_ne_nil hne
  rw [longest, hcount, List.drop_left]
  rfl

-- A float has a point behind a digit.
theorem pointed_of_longest_float {text : List Char} (h : 0 < longest .float text) :
    ∃ rest, text = text.takeWhile Char.isDigit ++ '.' :: rest ∧
      text.takeWhile Char.isDigit ≠ [] := by
  rw [longest] at h
  split at h
  · omega
  · rename_i rest hrest hzero
    refine ⟨rest, ?_, ?_⟩
    · rw [← hrest, ← take_digitCount, List.take_append_drop]
    · intro hnil
      exact hzero (by simp [digitCount, hnil])
  · omega

end Pattern

namespace Lexer

-- The kinds of the lexemes: what the best rule says, or an illegal piece of text.
theorem lexeme_cases (text : List Char) :
    (lexeme text).2 = .illegal ∨
      ∃ rule ∈ Pattern.table, lexeme text = (rule.1.longest text, rule.2) ∧
        0 < rule.1.longest text := by
  obtain hnone | ⟨rule, hmem, heq, hpos⟩ := Pattern.best_cases text Pattern.table
  · simp [lexeme, hnone]
  · rw [lexeme, heq]
    split
    · exact .inl rfl
    · rename_i length _ hfloat
      split
      · exact .inl rfl
      · exact .inr ⟨rule, hmem, by simp_all, hpos⟩
    · exact .inr ⟨rule, hmem, rfl, hpos⟩

theorem lexeme_ne_eof (text : List Char) : (lexeme text).2 ≠ .eof := by
  have htable : ∀ rule ∈ Pattern.table, rule.2 ≠ .eof := by decide
  obtain hillegal | ⟨rule, hmem, heq, -⟩ := lexeme_cases text
  · simp [hillegal]
  · rw [heq]
    exact htable rule hmem

-- A token of a class is what the rule of the class finds.
theorem lexeme_of_class {text : List Char} {pattern : Pattern} {kind : TokenKind}
    (hk : kind ≠ .illegal) (htable : ∀ rule ∈ Pattern.table, rule.2 = kind → rule.1 = pattern)
    (h : (lexeme text).2 = kind) :
    (lexeme text).1 = pattern.longest text ∧ 0 < pattern.longest text := by
  obtain hillegal | ⟨rule, hmem, heq, hpos⟩ := lexeme_cases text
  · exact absurd (h.symm.trans hillegal) hk
  · rw [heq] at h ⊢
    rw [htable rule hmem h] at hpos ⊢
    exact ⟨rfl, hpos⟩

theorem lexeme_integer {text : List Char} (h : (lexeme text).2 = .integer) :
    (lexeme text).1 = Pattern.integer.longest text ∧ 0 < Pattern.integer.longest text :=
  lexeme_of_class (by decide) (by decide) h

theorem lexeme_float {text : List Char} (h : (lexeme text).2 = .float) :
    (lexeme text).1 = Pattern.float.longest text ∧ 0 < Pattern.float.longest text :=
  lexeme_of_class (by decide) (by decide) h

theorem lexeme_string {text : List Char} (h : (lexeme text).2 = .string) :
    (lexeme text).1 = Pattern.string.longest text ∧ 0 < Pattern.string.longest text :=
  lexeme_of_class (by decide) (by decide) h

theorem lexeme_identifier {text : List Char} (h : (lexeme text).2 = .identifier) :
    (lexeme text).1 = Pattern.identifier.longest text ∧ 0 < Pattern.identifier.longest text :=
  lexeme_of_class (by decide) (by decide) h

end Lexer

-- A token as the lexer makes it, from the piece of text at its place.
def Token.Lexed (token : Token) : Prop :=
  ∃ text : List Char, token.kind = (Lexer.lexeme text).2 ∧
    token.literal = String.ofList (text.take (Lexer.lexeme text).1)

theorem Lexer.tokensFrom_lexed (offset inside : Nat) (text : List Char) :
    ∀ token ∈ tokensFrom offset inside text, token.Lexed := by
  intro token hmem
  induction text generalizing offset inside with
  | nil => simp [tokensFrom] at hmem
  | cons c rest ih =>
      cases inside with
      | succ inside => exact ih _ _ hmem
      | zero =>
          rw [tokensFrom] at hmem
          split at hmem
          · exact ih _ _ hmem
          · rw [List.mem_cons] at hmem
            obtain rfl | hmem := hmem
            · exact ⟨c :: rest, rfl, rfl⟩
            · exact ih _ _ hmem

theorem Cursor.ofSource_lexed (source : String) :
    ∀ token ∈ (Cursor.ofSource source).ahead, token.Lexed :=
  Lexer.tokensFrom_lexed 0 0 source.toList

namespace Token

-- The number a literal of digits denotes.
def decimal (token : Token) : Nat := Nat.ofDigitChars 10 token.literal.toList 0

variable {token : Token}

theorem Lexed.ne_eof (h : token.Lexed) : token.kind ≠ .eof := by
  obtain ⟨text, hkind, -⟩ := h
  rw [hkind]
  exact Lexer.lexeme_ne_eof text

theorem Lexed.integer_digits (h : token.Lexed) (hk : token.kind = .integer) :
    token.literal.toList ≠ [] ∧ ∀ c ∈ token.literal.toList, c.isDigit := by
  obtain ⟨text, hkind, hliteral⟩ := h
  obtain ⟨hlength, hpos⟩ := Lexer.lexeme_integer (hkind.symm.trans hk)
  have hdigits : token.literal.toList = text.takeWhile Char.isDigit := by
    rw [hliteral, hlength, String.toList_ofList]
    exact Pattern.take_digitCount text
  rw [hdigits]
  refine ⟨List.ne_nil_of_length_pos hpos, ?_⟩
  intro c hc
  exact List.mem_takeWhile_imp hc

-- An integer literal is read unless its value is too large.
theorem Lexed.integer_read (h : token.Lexed) (hk : token.kind = .integer) :
    Integer.read? token.literal =
      if token.decimal ≤ 2147483647 then some (Int32.ofInt token.decimal) else none := by
  obtain ⟨hne, hdigits⟩ := h.integer_digits hk
  have hread := Integer.read?_digits hne hdigits
  rwa [String.ofList_toList] at hread

-- The text of an integer is read as the integer.
theorem Lexed.integer_reread {value : Int32} (h : token.Lexed) (hk : token.kind = .integer)
    (hread : Integer.read? token.literal = some value) :
    ∃ digits, Integer.text value = String.ofList digits ∧ digits ≠ [] ∧
      (∀ c ∈ digits, c.isDigit) ∧ Integer.read? (Integer.text value) = some value := by
  rw [h.integer_read hk] at hread
  split at hread
  · rename_i hle
    obtain rfl := Option.some.inj hread
    exact ⟨_, Integer.text_ofInt hle, Nat.toDigits_ne_nil, isDigit_toDigits _, Integer.read?_text _⟩
  · contradiction

-- A float literal has a point behind a digit and else only digits.
theorem Lexed.float_shape (h : token.Lexed) (hk : token.kind = .float) :
    ∃ whole fraction : List Char, token.literal.toList = whole ++ '.' :: fraction ∧ whole ≠ [] ∧
      (∀ c ∈ whole, c.isDigit) ∧ ∀ c ∈ fraction, c.isDigit := by
  obtain ⟨text, hkind, hliteral⟩ := h
  obtain ⟨hlength, hpos⟩ := Lexer.lexeme_float (hkind.symm.trans hk)
  rw [hlength, ← String.toList_inj, String.toList_ofList] at hliteral
  obtain ⟨rest, htext, hne⟩ := Pattern.pointed_of_longest_float hpos
  have hw : ∀ c ∈ text.takeWhile Char.isDigit, c.isDigit := fun c hc => List.mem_takeWhile_imp hc
  generalize text.takeWhile Char.isDigit = whole at htext hne hw
  subst htext
  refine ⟨whole, rest.takeWhile Char.isDigit, ?_, hne, hw, fun c hc => List.mem_takeWhile_imp hc⟩
  rw [hliteral, Pattern.longest_float_pointed hne hw, Nat.add_assoc,
    List.take_length_add_append, Nat.add_comm 1, List.take_succ_cons, Pattern.take_digitCount]

end Token

-- Every float literal is read.
theorem Token.Lexed.float_read {token : Token} (h : token.Lexed) (hk : token.kind = .float) :
    ∃ bits ≤ Binary32.infinity,
      FloatText.read? token.literal = some (FloatText.ofMagnitude false bits) := by
  obtain ⟨whole, fraction, hliteral, hne, hw, hf⟩ := h.float_shape hk
  have hread := FloatText.read?_pointed hne hw hf
  rw [← hliteral, String.ofList_toList] at hread
  exact ⟨_, Binary32.ofDecimal_le_infinity _ _, hread⟩

end Capuchin
