import Capuchin.Proofs.Token.Languages
import Capuchin.Proofs.Token.Scanning
import Mathlib

-- Tokens are what the longest match among the shapes makes them.
namespace Capuchin

namespace Pattern

def isWord : Pattern → Bool
  | .word _ => true
  | _ => false

theorem best_append (text : List Char) (first second : List (Pattern × TokenKind)) :
    best text (first ++ second) =
      if (best text first).1 < (best text second).1 then best text second else best text first := by
  induction second using List.reverseRecOn with
  | nil => simp [best]
  | append_singleton second rule ih =>
      rw [← List.append_assoc, best_concat, best_concat, ih]
      by_cases hsecond : (best text first).1 < (best text second).1
      · rw [if_pos hsecond]
        by_cases hrule : (best text second).1 < rule.1.longest text
        · rw [if_pos hrule, if_pos (hsecond.trans hrule)]
        · rw [if_neg hrule, if_pos hsecond]
      · rw [if_neg hsecond]
        by_cases hrule : (best text second).1 < rule.1.longest text
        · rw [if_pos hrule]
        · rw [if_neg hrule, if_neg hsecond, if_neg (by omega)]

theorem table_eq : table = table.filter (·.1.isWord) ++ table.filter (!·.1.isWord) := by decide

-- No shape has a word without characters.
theorem ne_nil_of_mem {rule : Pattern × TokenKind} (hrule : rule ∈ table) {word : List Char}
    (hword : word ∈ rule.1.language) : word ≠ [] := by
  obtain ⟨pattern, kind⟩ := rule
  cases pattern with
  | word text =>
      have hnonempty : ∀ rule ∈ table, rule.1 ≠ .word "" := by decide
      rintro rfl
      have htext : text = "" := String.toList_inj.mp hword.symm
      exact hnonempty _ hrule (by rw [htext])
  | integer => exact (mem_integer.mp hword).1
  | float =>
      obtain ⟨whole, fraction, rfl, -⟩ := mem_float.mp hword
      simp
  | string =>
      obtain ⟨pieces, last, rfl, -⟩ := mem_string.mp hword
      simp
  | identifier =>
      obtain ⟨c, rest, rfl, -⟩ := mem_one_mul_star.mp hword
      simp

theorem head_of_digits {digits : List Char} (hne : digits ≠ [])
    (hdigits : ∀ c ∈ digits, c.isDigit) :
    ∃ c rest, digits = c :: rest ∧ c.isDigit ∧ isIdentifierStart c = false := by
  obtain ⟨c, rest, rfl⟩ := List.exists_cons_of_ne_nil hne
  have hc := hdigits c List.mem_cons_self
  refine ⟨c, rest, rfl, hc, ?_⟩
  rw [Bool.eq_false_iff]
  intro hstart
  rw [Lexer.isDigit_of_isIdentifierStart hstart] at hc
  contradiction

-- The first character and the point tell the classes apart.
theorem eq_of_mem_class {pattern : Pattern} (hclass : pattern.isWord = false) {word : List Char}
    (hword : word ∈ pattern.language) :
    pattern = if word.head?.any isIdentifierStart then .identifier
      else if word.head?.any Char.isDigit then if '.' ∈ word then .float else .integer
      else .string := by
  have hpoint : ('.').isDigit = false := by decide
  cases pattern with
  | word text => cases hclass
  | integer =>
      obtain ⟨hne, hall⟩ := mem_integer.mp hword
      have hnone : '.' ∉ word := fun hmem => by simp [hall _ hmem] at hpoint
      obtain ⟨c, rest, rfl, hc, hstart⟩ := head_of_digits hne hall
      simp [hc, hstart, hnone]
  | float =>
      obtain ⟨whole, fraction, rfl, hne, hall, -⟩ := mem_float.mp hword
      obtain ⟨c, rest, rfl, hc, hstart⟩ := head_of_digits hne hall
      simp [hc, hstart]
  | string =>
      obtain ⟨pieces, last, rfl, -⟩ := mem_string.mp hword
      have hquote : isIdentifierStart '"' = false ∧ ('"').isDigit = false := by decide
      simp [hquote]
  | identifier =>
      obtain ⟨c, rest, rfl, hc, -⟩ := mem_one_mul_star.mp hword
      simp [hc]

-- Rules with a word in common name one kind, if both are fixed words or both are classes.
theorem kind_of_mem {rule other : Pattern × TokenKind} (hrule : rule ∈ table)
    (hother : other ∈ table) (hfixed : rule.1.isWord = other.1.isWord) {word : List Char}
    (hmem : word ∈ rule.1.language) (hmem' : word ∈ other.1.language) : rule.2 = other.2 := by
  have htable : ∀ rule ∈ table, ∀ other ∈ table, rule.1 = other.1 → rule.2 = other.2 := by decide
  apply htable rule hrule other hother
  cases hclass : rule.1.isWord with
  | false =>
      rw [eq_of_mem_class hclass hmem]
      exact (eq_of_mem_class (hfixed ▸ hclass) hmem').symm
  | true =>
      obtain ⟨pattern, kind⟩ := rule
      obtain ⟨shape, name⟩ := other
      cases pattern with
      | word text =>
          cases shape with
          | word letters =>
              have htext : text.toList = letters.toList := hmem.symm.trans hmem'
              exact congrArg Pattern.word (String.toList_inj.mp htext)
          | _ => cases hfixed
      | _ => cases hclass

-- The rule that wins finds most, and a fixed word wins a tie.
theorem best_table (text : List Char) :
    best text table = (0, .illegal) ∨
      ∃ rule ∈ table, best text table = (rule.1.longest text, rule.2) ∧
        0 < rule.1.longest text ∧
        (rule.1.isWord ∨ ∀ other ∈ table, other.1.isWord →
          other.1.longest text < rule.1.longest text) := by
  have hbest := best_append text (table.filter (·.1.isWord)) (table.filter (!·.1.isWord))
  rw [← table_eq] at hbest
  split at hbest
  · rename_i hlt
    obtain hnone | ⟨rule, hmem, hrule, hpos⟩ := best_cases text (table.filter (!·.1.isWord))
    · exact .inl (hbest.trans hnone)
    · refine .inr ⟨rule, (List.mem_filter.mp hmem).1, hbest.trans hrule, hpos, .inr ?_⟩
      intro other hother hword
      have hfixed : other ∈ table.filter (·.1.isWord) := List.mem_filter.mpr ⟨hother, hword⟩
      have hle := longest_le_best text hfixed
      rw [hrule] at hlt
      exact Nat.lt_of_le_of_lt hle hlt
  · obtain hnone | ⟨rule, hmem, hrule, hpos⟩ := best_cases text (table.filter (·.1.isWord))
    · exact .inl (hbest.trans hnone)
    · obtain ⟨hmem, hword⟩ := List.mem_filter.mp hmem
      exact .inr ⟨rule, hmem, hbest.trans hrule, hpos, .inl hword⟩

end Pattern

namespace Lexer

open Pattern

-- The kind of a literal with a text behind it. A float may not run into a second point.
def kindBefore (kind : TokenKind) (behind : List Char) : TokenKind :=
  if kind = .float ∧ behind.head? = some '.' then .illegal else kind

-- What a text begins with by the rule of the longest match. If a shape matches a beginning of the
-- text, the literal is the longest such beginning, and a fixed word comes before the classes. If
-- none does, one character is illegal.
inductive Munch : List Char → List Char → TokenKind → Prop
  | found {rule : Pattern × TokenKind} {literal behind : List Char} (hrule : rule ∈ table)
      (hliteral : literal ∈ rule.1.language)
      (hlongest : ∀ other ∈ table, ∀ word ∈ other.1.language, word <+: literal ++ behind →
        word.length ≤ literal.length)
      (hword : rule.1.isWord ∨ ∀ other ∈ table, other.1.isWord → literal ∉ other.1.language) :
      Munch literal behind (kindBefore rule.2 behind)
  | none {c : Char} {behind : List Char}
      (hnone : ∀ rule ∈ table, ∀ word ∈ rule.1.language, ¬word <+: c :: behind) :
      Munch [c] behind .illegal

theorem lexeme_of_best_pos {text : List Char} {length : Nat} {kind : TokenKind}
    (h : best text table = (length, kind)) (hpos : 0 < length) :
    lexeme text = (length, kindBefore kind (text.drop length)) := by
  rw [lexeme, h, kindBefore]
  split
  · simp_all
  · simp_all
  · simp_all

theorem munch_of_lexeme {literal behind : List Char} {kind : TokenKind} (hne : literal ≠ [])
    (h : lexeme (literal ++ behind) = (literal.length, kind)) : Munch literal behind kind := by
  obtain hnone | ⟨rule, hrule, hbest, hpos, hword⟩ := best_table (literal ++ behind)
  · rw [lexeme, hnone] at h
    obtain ⟨hlength, rfl⟩ := Prod.mk.inj h
    obtain ⟨c, rfl⟩ := List.length_eq_one_iff.mp hlength.symm
    refine .none fun rule hrule word hword hprefix => ?_
    have hle := (isLongest ([c] ++ behind) rule.1).le word hword hprefix
    have hmost := longest_le_best ([c] ++ behind) hrule
    rw [hnone] at hmost
    exact ne_nil_of_mem hrule hword (List.eq_nil_of_length_eq_zero (by omega))
  · rw [lexeme_of_best_pos hbest hpos] at h
    obtain ⟨hlength, rfl⟩ := Prod.mk.inj h
    have hliteral := (isLongest (literal ++ behind) rule.1).mem hpos
    rw [hlength, List.take_left] at hliteral
    rw [hlength, List.drop_left]
    refine .found hrule hliteral (fun other hother word hmem hprefix => ?_) ?_
    · have hle := (isLongest (literal ++ behind) other.1).le word hmem hprefix
      have hmost := longest_le_best (literal ++ behind) hother
      rw [hbest] at hmost
      exact hle.trans (hmost.trans hlength.le)
    · obtain hself | hless := hword
      · exact .inl hself
      · refine .inr fun other hother hfixed hmem => ?_
        have hle := (isLongest (literal ++ behind) other.1).le literal hmem (List.prefix_append _ _)
        have hlt := hless other hother hfixed
        omega

theorem Munch.length_le {literal behind other rest : List Char} {kind kind' : TokenKind}
    (h : Munch literal behind kind) (h' : Munch other rest kind')
    (htext : literal ++ behind = other ++ rest) : other.length ≤ literal.length := by
  cases h' with
  | found hrule hmem =>
      have hprefix : other <+: literal ++ behind := htext ▸ List.prefix_append other rest
      cases h with
      | found _ _ hlongest => exact hlongest _ hrule _ hmem hprefix
      | none hnone => exact absurd hprefix (hnone _ hrule _ hmem)
  | none =>
      cases h with
      | found hrule hmem => exact List.length_pos_of_ne_nil (ne_nil_of_mem hrule hmem)
      | none => exact Nat.le_refl 1

-- The rule of the longest match leaves no choice.
theorem Munch.unique {literal behind other rest : List Char} {kind kind' : TokenKind}
    (h : Munch literal behind kind) (h' : Munch other rest kind')
    (htext : literal ++ behind = other ++ rest) : literal = other ∧ kind = kind' := by
  have hlength : literal.length = other.length :=
    Nat.le_antisymm (h'.length_le h htext.symm) (h.length_le h' htext)
  obtain ⟨rfl, rfl⟩ := List.append_inj htext hlength
  refine ⟨rfl, ?_⟩
  cases h with
  | @found rule _ _ hrule hmem _ hword =>
      cases h' with
      | @found other _ _ hother hmem' _ hword' =>
          have hfixed : rule.1.isWord = other.1.isWord := by
            rw [Bool.eq_iff_iff]
            constructor
            · intro hself
              exact hword'.resolve_right fun hnone => hnone _ hrule hself hmem
            · intro hself
              exact hword.resolve_right fun hnone => hnone _ hother hself hmem'
          rw [kind_of_mem hrule hother hfixed hmem hmem']
      | none hnone => exact absurd (List.prefix_append _ _) (hnone _ hrule _ hmem)
  | none hnone =>
      cases h' with
      | found hrule hmem => exact absurd (List.prefix_append _ _) (hnone _ hrule _ hmem)
      | none => rfl

end Lexer

open Lexer

-- The byte behind the last of some tokens, which stand behind `offset` bytes.
def endOf (offset : Nat) : List Token → Nat
  | [] => offset
  | token :: rest => endOf token.stop rest

-- The token that comes next when one text has been read and another one is left. It starts at
-- the first character that is not white space, and is what the text from there on begins with. It
-- is the end if nothing but white space is left.
def Token.Next (consumed left : List Char) (token : Token) : Prop :=
  ∃ gap rest, left = gap ++ rest ∧ (∀ c ∈ gap, Text.isBlank c) ∧
    (∀ c ∈ rest.head?, Text.isBlank c = false) ∧
    token.start = String.utf8Len (consumed ++ gap) ∧
    (token.kind = .eof ↔ ∀ c ∈ left, Text.isBlank c) ∧
    (token.kind ≠ .eof → ∃ behind, rest = token.literal.toList ++ behind ∧
      Munch token.literal.toList behind token.kind)

theorem Lexer.Scanned.next {offset : Nat} {read text : List Char} {tokens : List Token}
    (h : Scanned offset text tokens) (hread : String.utf8Len read = offset)
    {before after : List Token} {token finish : Token} (hkind : finish.kind = .eof)
    (hstart : finish.start = offset + String.utf8Len text)
    (hsplit : tokens ++ [finish] = before ++ token :: after) :
    ∃ consumed left, read ++ text = consumed ++ left ∧
      String.utf8Len consumed = endOf offset before ∧ token.Next consumed left := by
  induction h generalizing read before with
  | @blanks offset text hblank =>
      cases before with
      | nil =>
          obtain ⟨rfl, -⟩ := List.cons.inj hsplit
          refine ⟨read, text, rfl, hread, text, [], by simp, hblank, by simp, ?_,
            iff_of_true hkind hblank, fun hproper => absurd hkind hproper⟩
          rw [String.utf8Len_append, hread, hstart]
      | cons first before => simp at hsplit
  | @token offset gap word rest kind tokens hgap hword hlexeme hrest ih =>
      obtain ⟨c, more, hcons, hvisible⟩ := hword
      have hmunch : Munch word rest kind := munch_of_lexeme (by simp [hcons]) hlexeme
      have hproper : kind ≠ .eof := by simpa [hlexeme] using lexeme_ne_eof (word ++ rest)
      cases before with
      | nil =>
          obtain ⟨rfl, -⟩ := List.cons.inj hsplit
          refine ⟨read, _, rfl, hread, gap, word ++ rest, rfl, hgap, ?_, ?_, ?_, ?_⟩
          · simpa [hcons] using hvisible
          · rw [String.utf8Len_append, hread]
          · refine iff_of_false hproper fun hblank => ?_
            have hc := hblank c (by simp [hcons])
            rw [hvisible] at hc
            contradiction
          · intro _
            rw [String.toList_ofList]
            exact ⟨rest, rfl, hmunch⟩
      | cons first before =>
          obtain ⟨rfl, hlater⟩ := List.cons.inj hsplit
          have hend := hstart.trans (utf8Len_whole offset gap word rest)
          obtain ⟨consumed, left, hsource, hconsumed, hnext⟩ :=
            ih (utf8Len_behind hread gap word) hend hlater
          refine ⟨consumed, left, ?_, ?_, hnext⟩
          · rw [← hsource]
            simp
          · rw [hconsumed, endOf, Token.stop_eq, String.toList_ofList]

-- Each token of a source is the one that comes next behind the tokens before it.
theorem tokenize_munches (source : String) (before after : List Token) (token : Token)
    (h : tokenize source = before ++ token :: after) :
    ∃ consumed left, source.toList = consumed ++ left ∧
      String.utf8Len consumed = endOf 0 before ∧ token.Next consumed left := by
  have hstart : (Cursor.ofSource source).finish.start = 0 + String.utf8Len source.toList := by
    rw [Nat.zero_add, ← Cursor.utf8ByteSize_eq]
    rfl
  exact (Cursor.ofSource_scanned source).next String.utf8Len_nil rfl hstart h

-- A number that runs into a second point.
theorem tokenize_munches_secondPoint :
    let before : List Token := [{ kind := .identifier, start := 0, literal := "x" }]
    let token : Token := { kind := .illegal, start := 2, literal := "1.2" }
    let after : List Token := [{ kind := .illegal, start := 5, literal := "." },
      { kind := .integer, start := 6, literal := "3" }, { kind := .eof, start := 7, literal := "" }]
    tokenize "x 1.2.3" = before ++ token :: after ∧
      ∃ consumed left, "x 1.2.3".toList = consumed ++ left ∧
        String.utf8Len consumed = endOf 0 before ∧ token.Next consumed left := by
  intro before token after
  have hsplit : tokenize "x 1.2.3" = before ++ token :: after := by decide +kernel
  exact ⟨hsplit, tokenize_munches "x 1.2.3" before after token hsplit⟩

end Capuchin
