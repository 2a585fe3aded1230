import Capuchin.Proofs.Token.Lexemes
import Mathlib

-- Pieces of text that are a token, whatever stands behind them. A token that the lexer found in
-- one text is found again in another one.
namespace Capuchin

namespace Pattern

-- The text of a fixed word.
def letters : Pattern → List Char
  | .word text => text.toList
  | _ => []

theorem best_congr {text other : List Char} {rules : List (Pattern × TokenKind)}
    (h : ∀ rule ∈ rules, rule.1.longest text = rule.1.longest other) :
    best text rules = best other rules := by
  induction rules using List.reverseRecOn with
  | nil => rfl
  | append_singleton rules rule ih =>
      have hrest := ih fun other hmem => h other (by simp [hmem])
      rw [best_concat, best_concat, hrest, h rule (by simp)]

section Heads

variable {c : Char} {rest : List Char}

-- A word is not found where its first letter is not.
theorem longest_word_of_head {word : String} (h : word.toList.head? ≠ some c) :
    longest (.word word) (c :: rest) = 0 := by
  rw [longest]
  cases hcases : word.toList with
  | nil => simp
  | cons first more =>
      rw [hcases] at h
      simp only [List.head?_cons, ne_eq, Option.some.injEq] at h
      simp [h]

theorem longest_integer_of_head (h : c.isDigit = false) : longest .integer (c :: rest) = 0 := by
  simp [longest, digitCount, h]

theorem longest_float_of_head (h : c.isDigit = false) : longest .float (c :: rest) = 0 := by
  simp [longest, digitCount, h]

theorem longest_string_of_head (h : c ≠ '"') : longest .string (c :: rest) = 0 := by
  rw [longest]
  rintro _ ⟨⟩
  exact h rfl

theorem longest_identifier_of_head (h : isIdentifierStart c = false) :
    longest .identifier (c :: rest) = 0 := by
  simp [longest, h]

end Heads

theorem takeWhile_exchange {p : Char → Bool} {word tail rest : List Char}
    (hle : ((word ++ tail).takeWhile p).length ≤ word.length)
    (hrest : ∀ c ∈ rest.head?, p c = false) :
    (word ++ rest).takeWhile p = (word ++ tail).takeWhile p := by
  induction word with
  | nil =>
      have htail : tail.takeWhile p = [] := List.eq_nil_of_length_eq_zero (by simpa using hle)
      rw [List.nil_append, List.nil_append, htail]
      cases rest with
      | nil => rfl
      | cons c rest => simp [hrest c rfl]
  | cons c word ih =>
      simp only [List.cons_append, List.takeWhile_cons] at hle ⊢
      split
      · rename_i hc
        rw [if_pos hc] at hle
        simp only [List.length_cons, Nat.add_le_add_iff_right] at hle
        rw [ih hle]
      · rfl

end Pattern

namespace Lexer

open Pattern

section Best

variable {text : List Char} {length : Nat} {kind : TokenKind}

theorem best_of_lexeme (h : lexeme text = (length, kind)) (hk : kind ≠ .illegal) :
    best text table = (length, kind) ∧ 0 < length := by
  obtain hnone | ⟨rule, -, hrule, hpos⟩ := best_cases text table
  · simp only [lexeme, hnone, Prod.mk.injEq] at h
    exact absurd h.2.symm hk
  · rw [lexeme, hrule] at h
    split at h
    · simp_all
    · rename_i heq
      rw [Prod.mk.injEq] at heq h
      obtain ⟨rfl, hkind⟩ := h
      split at hkind
      · exact absurd hkind.symm hk
      · rw [hrule, heq.1, heq.2, hkind]
        exact ⟨rfl, heq.1 ▸ hpos⟩
    · rw [hrule, h]
      rw [Prod.mk.injEq] at h
      exact ⟨rfl, h.1 ▸ hpos⟩

theorem lexeme_of_best (h : best text table = (length, kind)) (hpos : 0 < length)
    (hk : kind ≠ .float) : lexeme text = (length, kind) := by
  rw [lexeme, h]
  split
  · simp_all
  · simp_all
  · rfl

theorem lexeme_of_best_float (h : best text table = (length, .float)) (hpos : 0 < length)
    (hpoint : (text.drop length).head? ≠ some '.') : lexeme text = (length, .float) := by
  rw [lexeme, h]
  split
  · simp_all
  · simp_all
  · simp_all

end Best

-- The first character behind a piece of text does not make it longer.
def Stops (word rest : List Char) : Prop :=
  ∀ c ∈ rest.head?, (∀ rule ∈ table, ¬ word ++ [c] <+: rule.1.letters) ∧
    ∀ first ∈ word.head?, isIdentifierStart first → isIdentifierPart c = false

section Exchange

variable {word tail rest : List Char}

theorem longest_word_exchange {text : String} {kind : TokenKind}
    (hmem : (.word text, kind) ∈ table) (hstops : Stops word rest)
    (hle : longest (.word text) (word ++ tail) ≤ word.length) :
    longest (.word text) (word ++ rest) = longest (.word text) (word ++ tail) := by
  have hiff : text.toList <+: word ++ rest ↔ text.toList <+: word ++ tail := by
    constructor
    · intro hprefix
      obtain hlong | hshort := Nat.lt_or_ge word.length text.toList.length
      · obtain ⟨more, hmore⟩ :=
          List.prefix_of_prefix_length_le (List.prefix_append word rest) hprefix hlong.le
        rw [← hmore, List.prefix_append_right_inj] at hprefix
        cases more with
        | nil =>
            rw [← hmore] at hlong
            simp at hlong
        | cons c more =>
            obtain ⟨behind, rfl⟩ := hprefix
            have hnone := (hstops c rfl).1 _ hmem
            rw [letters, ← hmore, List.prefix_append_right_inj] at hnone
            exact absurd ⟨more, rfl⟩ hnone
      · have hword := List.prefix_of_prefix_length_le hprefix (List.prefix_append word rest) hshort
        exact hword.trans (List.prefix_append word tail)
    · intro hprefix
      rw [longest, if_pos (List.isPrefixOf_iff_prefix.mpr hprefix)] at hle
      have hword := List.prefix_of_prefix_length_le hprefix (List.prefix_append word tail) hle
      exact hword.trans (List.prefix_append word rest)
  simp only [longest, List.isPrefixOf_iff_prefix, hiff]

theorem longest_identifier_exchange (hne : word ≠ []) (hstops : Stops word rest)
    (hle : longest .identifier (word ++ tail) ≤ word.length) :
    longest .identifier (word ++ rest) = longest .identifier (word ++ tail) := by
  obtain ⟨first, word, rfl⟩ := List.exists_cons_of_ne_nil hne
  simp only [List.cons_append, longest] at hle ⊢
  split
  · rename_i hfirst
    rw [if_pos hfirst] at hle
    rw [takeWhile_exchange (by simpa using hle)]
    intro c hc
    exact (hstops c hc).2 first rfl hfirst
  · rfl

-- The lexer does not see what stands behind a piece that stops, unless it is a number or a string.
theorem lexeme_exchange {kind : TokenKind} (hne : word ≠ []) (hstops : Stops word rest)
    (hdigit : ∀ c ∈ word.head?, c.isDigit = false) (hquote : word.head? ≠ some '"')
    (h : lexeme (word ++ tail) = (word.length, kind)) (hk : kind ≠ .illegal) :
    lexeme (word ++ rest) = (word.length, kind) := by
  obtain ⟨first, more, hword⟩ := List.exists_cons_of_ne_nil hne
  have hfirst : first.isDigit = false := hdigit first (by simp [hword])
  have hnot : first ≠ '"' := by
    rintro rfl
    simp [hword] at hquote
  obtain ⟨hbest, hpos⟩ := best_of_lexeme h hk
  have hfloat : kind ≠ .float := by
    rintro rfl
    have hlongest := (lexeme_float (congrArg Prod.snd h)).2
    rw [hword, List.cons_append, longest_float_of_head hfirst] at hlongest
    omega
  refine lexeme_of_best ?_ hpos hfloat
  rw [← hbest]
  refine best_congr fun ⟨pattern, other⟩ hmem => ?_
  have hle := longest_le_best (word ++ tail) hmem
  rw [hbest] at hle
  cases pattern with
  | word text => exact longest_word_exchange hmem hstops hle
  | identifier => exact longest_identifier_exchange hne hstops hle
  | integer =>
      simp only [hword, List.cons_append, longest_integer_of_head hfirst]
  | float =>
      simp only [hword, List.cons_append, longest_float_of_head hfirst]
  | string =>
      simp only [hword, List.cons_append, longest_string_of_head hnot]

end Exchange

-- The characters behind which no token but a string goes on.
def separators : List Char := [' ', ';', ',', '(', ')', '[', ']']

def Breaks (rest : List Char) : Prop := ∀ c ∈ rest.head?, c ∈ separators

theorem Breaks.nil : Breaks [] := nofun

theorem Breaks.cons {c : Char} (h : c ∈ separators) (rest : List Char) : Breaks (c :: rest) := by
  simpa [Breaks] using h

theorem Breaks.stops {word rest : List Char} (h : Breaks rest) (hne : word ≠ []) :
    Stops word rest := by
  have htable : ∀ rule ∈ table, rule.1.letters.tail.all fun c => !separators.contains c := by
    decide
  have hparts : separators.all fun c => !isIdentifierPart c := by decide
  intro c hc
  have hc := h c hc
  refine ⟨fun rule hmem hprefix => ?_, fun _ _ _ => by simpa using List.all_eq_true.mp hparts c hc⟩
  obtain ⟨first, more, rfl⟩ := List.exists_cons_of_ne_nil hne
  obtain ⟨behind, hletters⟩ := hprefix
  have hnone := List.all_eq_true.mp (htable rule hmem) c (by simp [← hletters])
  simp [hc] at hnone

-- A symbol that is longer in the table only with characters that do not stand behind it here.
theorem stops_symbol {c : Char} {rest : List Char} (later : List Char)
    (htable : ∀ rule ∈ table, rule.1.letters.head? = some c →
      rule.1.letters.tail.all later.contains)
    (hstart : isIdentifierStart c = false) (hrest : ∀ x ∈ rest.head?, x ∉ later) :
    Stops [c] rest := by
  intro x hx
  constructor
  · rintro rule hmem ⟨behind, hletters⟩
    have hlater := List.all_eq_true.mp (htable rule hmem (by simp [← hletters])) x
      (by simp [← hletters])
    exact hrest x hx (by simpa using hlater)
  · intro first hfirst
    obtain rfl : c = first := by simpa using hfirst
    simp [hstart]

-- A piece of text that is a token in front of all that breaks.
structure Piece (kind : TokenKind) (word : List Char) : Prop where
  visible : ∃ c more, word = c :: more ∧ Text.isBlank c = false
  lexeme : ∀ rest, Breaks rest → Lexer.lexeme (word ++ rest) = (word.length, kind)

section Pieces

variable {c : Char} {word tail : List Char} {kind : TokenKind}

theorem isBlank_of_ascii (hlow : 33 ≤ c.toNat) (hup : c.toNat < 0x85) :
    Text.isBlank c = false := by
  simp [Text.isBlank, Text.blankRanges]
  omega

theorem isBlank_of_isDigit (h : c.isDigit) : Text.isBlank c = false := by
  simp only [Char.isDigit, Bool.and_eq_true, decide_eq_true_eq] at h
  have hlow : 48 ≤ c.toNat := h.1
  have hup : c.toNat ≤ 57 := h.2
  exact isBlank_of_ascii (by omega) (by omega)

theorem isBlank_of_isIdentifierStart (h : isIdentifierStart c) : Text.isBlank c = false := by
  simp only [isIdentifierStart, Char.isAlpha, Char.isUpper, Char.isLower, Bool.or_eq_true,
    Bool.and_eq_true, decide_eq_true_eq] at h
  obtain (((⟨hlow, hup⟩ | ⟨hlow, hup⟩) | rfl) | rfl) := h
  · have hfirst : 65 ≤ c.toNat := hlow
    have hlast : c.toNat ≤ 90 := hup
    exact isBlank_of_ascii (by omega) (by omega)
  · have hfirst : 97 ≤ c.toNat := hlow
    have hlast : c.toNat ≤ 122 := hup
    exact isBlank_of_ascii (by omega) (by omega)
  · decide
  · decide

-- A piece that the lexer finds in one text, neither a number nor a string.
theorem piece_of_lexeme (h : Lexer.lexeme (word ++ tail) = (word.length, kind))
    (hk : kind ≠ .illegal) (hhead : ∃ c more, word = c :: more ∧ Text.isBlank c = false ∧
      c.isDigit = false ∧ c ≠ '"') : Piece kind word := by
  obtain ⟨c, more, hword, hvisible, hdigit, hquote⟩ := hhead
  have hne : word ≠ [] := by simp [hword]
  refine ⟨⟨c, more, hword, hvisible⟩, fun rest hrest => ?_⟩
  exact lexeme_exchange hne (hrest.stops hne) (by simp [hword, hdigit])
    (by simp [hword, hquote]) h hk

-- The fixed words stand for themselves.
theorem piece_of_word {text : String} (hmem : (.word text, kind) ∈ table) :
    Piece kind text.toList := by
  have hall : ∀ rule ∈ table, rule.2 != .illegal && (rule.1.letters == [] ||
      Lexer.lexeme rule.1.letters == (rule.1.letters.length, rule.2) &&
        rule.1.letters.head?.any fun c => !Text.isBlank c && !c.isDigit && c != '"') := by
    decide +kernel
  have hnonempty : ∀ rule ∈ table, rule.1 ≠ .word "" := by decide
  have hword := hall _ hmem
  simp only [letters, Bool.and_eq_true, Bool.or_eq_true, bne_iff_ne, beq_iff_eq] at hword
  obtain ⟨hk, hnil | ⟨hlexeme, hhead⟩⟩ := hword
  · have hempty : text = "" := by rw [← String.toList_inj, hnil]; rfl
    exact absurd (congrArg Pattern.word hempty) (hnonempty _ hmem)
  · have halone : Lexer.lexeme (text.toList ++ []) = (text.toList.length, kind) := by
      rw [List.append_nil, hlexeme]
    refine piece_of_lexeme halone hk ?_
    cases hcases : text.toList with
    | nil => simp [hcases] at hhead
    | cons c more =>
        simp only [hcases, List.head?_cons, Option.any_some, Bool.and_eq_true, Bool.not_eq_true',
          bne_iff_ne] at hhead
        exact ⟨c, more, rfl, hhead.1.1, hhead.1.2, hhead.2⟩

theorem isDigit_of_isIdentifierStart (h : isIdentifierStart c) : c.isDigit = false := by
  rw [Bool.eq_false_iff]
  intro hdigit
  simp only [Char.isDigit, Bool.and_eq_true, decide_eq_true_eq] at hdigit
  have hlow : 48 ≤ c.toNat := hdigit.1
  have hup : c.toNat ≤ 57 := hdigit.2
  simp only [isIdentifierStart, Char.isAlpha, Char.isUpper, Char.isLower, Bool.or_eq_true,
    Bool.and_eq_true, decide_eq_true_eq] at h
  obtain (((⟨hfirst, -⟩ | ⟨hfirst, -⟩) | rfl) | rfl) := h
  · have hfirst : 65 ≤ c.toNat := hfirst
    omega
  · have hfirst : 97 ≤ c.toNat := hfirst
    omega
  · exact absurd hup (by decide)
  · exact absurd hlow (by decide)

-- An identifier is found again.
theorem piece_of_identifier {token : Token} (h : token.Lexed) (hk : token.kind = .identifier) :
    Piece .identifier token.literal.toList ∧
      ∃ c more, token.literal.toList = c :: more ∧ isIdentifierStart c := by
  obtain ⟨text, hkind, hliteral⟩ := h
  have hfound := hkind.symm.trans hk
  obtain ⟨hlength, hpos⟩ := lexeme_identifier hfound
  cases text with
  | nil => simp [longest] at hpos
  | cons c more =>
      have hstart : isIdentifierStart c := by
        by_contra hnot
        simp [longest, hnot] at hpos
      have hword : token.literal.toList = (c :: more).take (lexeme (c :: more)).1 := by
        rw [hliteral, String.toList_ofList]
      obtain ⟨length, hsucc⟩ := Nat.exists_eq_add_one_of_ne_zero (hlength ▸ hpos.ne')
      rw [hsucc, List.take_succ_cons] at hword
      refine ⟨?_, c, more.take length, hword, hstart⟩
      have hle : length ≤ more.length := by
        have hmax : longest .identifier (c :: more) ≤ more.length + 1 := by
          simp only [longest, if_pos hstart]
          have hprefix := (List.takeWhile_prefix (l := more) isIdentifierPart).length_le
          omega
        omega
      have hself : token.literal.toList ++ more.drop length = c :: more := by
        rw [hword, List.cons_append, List.take_append_drop]
      have hsize : token.literal.toList.length = length + 1 := by
        rw [hword, List.length_cons, List.length_take, Nat.min_eq_left hle]
      have hlexeme : lexeme (token.literal.toList ++ more.drop length) =
          (token.literal.toList.length, .identifier) := by
        rw [hself, hsize, ← hsucc, ← hfound]
      refine piece_of_lexeme hlexeme (by decide) ⟨c, _, hword, isBlank_of_isIdentifierStart hstart,
        isDigit_of_isIdentifierStart hstart, ?_⟩
      rintro rfl
      exact absurd hstart (by decide)

end Pieces

section Classes

variable {c : Char} {rest : List Char} {rule : Pattern × TokenKind}

-- Each shape stands in the table once.
theorem shape_ne {other : Pattern × TokenKind} (hmem : rule ∈ table) (hother : other ∈ table)
    (hne : other ≠ rule) : other.1 ≠ rule.1 := by
  have hnodup : (table.map Prod.fst).Nodup := by decide
  exact fun heq => hne (List.inj_on_of_nodup_map hnodup hother hmem heq)

-- Nothing but a number begins with a digit.
theorem longest_of_isDigit (hmem : rule ∈ table) (hc : c.isDigit) (hinteger : rule.1 ≠ .integer)
    (hfloat : rule.1 ≠ .float) : rule.1.longest (c :: rest) = 0 := by
  have htable : ∀ rule ∈ table, rule.1.letters.head?.all fun c => !c.isDigit := by decide
  obtain ⟨pattern, kind⟩ := rule
  cases pattern with
  | word text =>
      apply longest_word_of_head
      intro hhead
      have hnot := htable _ hmem
      rw [letters, hhead] at hnot
      simp [hc] at hnot
  | integer => contradiction
  | float => contradiction
  | string =>
      apply longest_string_of_head
      rintro rfl
      exact absurd hc (by decide)
  | identifier =>
      apply longest_identifier_of_head
      rw [Bool.eq_false_iff]
      intro hstart
      simp [isDigit_of_isIdentifierStart hstart] at hc

-- Nothing but a string begins with a quote.
theorem longest_of_quote (hmem : rule ∈ table) (hstring : rule.1 ≠ .string) :
    rule.1.longest ('"' :: rest) = 0 := by
  have htable : ∀ rule ∈ table, rule.1.letters.head?.all fun c => c != '"' := by decide
  obtain ⟨pattern, kind⟩ := rule
  cases pattern with
  | word text =>
      apply longest_word_of_head
      intro hhead
      have hnot := htable _ hmem
      rw [letters, hhead] at hnot
      simp at hnot
  | integer => exact longest_integer_of_head (by decide)
  | float => exact longest_float_of_head (by decide)
  | string => contradiction
  | identifier => exact longest_identifier_of_head (by decide)

theorem Breaks.not_isDigit (h : Breaks rest) : ∀ c ∈ rest.head?, c.isDigit = false := by
  have hall : separators.all fun c => !c.isDigit := by decide
  intro c hc
  simpa using List.all_eq_true.mp hall c (h c hc)

theorem Breaks.head_ne (h : Breaks rest) (hc : c ∉ separators) : rest.head? ≠ some c := by
  intro heq
  exact hc (h c heq)

theorem digitCount_breaks {digits : List Char} (hdigits : ∀ c ∈ digits, c.isDigit)
    (hrest : Breaks rest) : digitCount (digits ++ rest) = digits.length := by
  rw [digitCount_append hdigits]
  cases rest with
  | nil => rfl
  | cons c rest => simp [digitCount, hrest.not_isDigit c rfl]

theorem piece_of_digits {digits : List Char} (hne : digits ≠ [])
    (hdigits : ∀ c ∈ digits, c.isDigit) : Piece .integer digits := by
  obtain ⟨first, more, rfl⟩ := List.exists_cons_of_ne_nil hne
  have hfirst : first.isDigit := hdigits first (by simp)
  refine ⟨⟨first, more, rfl, isBlank_of_isDigit hfirst⟩, fun rest hrest => ?_⟩
  have hinteger : longest .integer (first :: more ++ rest) = (first :: more).length :=
    digitCount_breaks hdigits hrest
  have hfloat : longest .float (first :: more ++ rest) = 0 := by
    by_contra hpos
    obtain ⟨behind, htext, -⟩ := pointed_of_longest_float (Nat.pos_of_ne_zero hpos)
    rw [← take_digitCount, digitCount_breaks hdigits hrest, List.take_left,
      List.append_cancel_left_eq] at htext
    exact hrest.head_ne (c := '.') (by decide) (by rw [htext]; rfl)
  have hbest : best (first :: more ++ rest) table =
      (longest .integer (first :: more ++ rest), .integer) := by
    refine best_of_most _ (.integer, .integer) (by decide) (hinteger ▸ by simp) ?_
    intro other hmem hother
    have hshape := shape_ne (by decide) hmem hother
    rw [hinteger]
    by_cases hpointed : other.1 = .float
    · rw [hpointed, hfloat]
      simp
    · rw [List.cons_append, longest_of_isDigit hmem hfirst hshape hpointed]
      simp
  rw [hinteger] at hbest
  exact lexeme_of_best hbest (by simp) (by decide)

theorem piece_of_pointed {whole fraction : List Char} (hne : whole ≠ [])
    (hwhole : ∀ c ∈ whole, c.isDigit) (hfraction : ∀ c ∈ fraction, c.isDigit) :
    Piece .float (whole ++ '.' :: fraction) := by
  obtain ⟨first, more, rfl⟩ := List.exists_cons_of_ne_nil hne
  have hfirst : first.isDigit := hwhole first (by simp)
  refine ⟨⟨first, more ++ '.' :: fraction, rfl, isBlank_of_isDigit hfirst⟩, fun rest hrest => ?_⟩
  have hsplit : first :: more ++ '.' :: fraction ++ rest =
      first :: more ++ '.' :: (fraction ++ rest) := by simp
  rw [hsplit]
  have hfloat : longest .float (first :: more ++ '.' :: (fraction ++ rest)) =
      (first :: more ++ '.' :: fraction).length := by
    rw [longest_float_pointed hne hwhole, digitCount_breaks hfraction hrest]
    simp only [List.length_append, List.length_cons]
    omega
  have hinteger : longest .integer (first :: more ++ '.' :: (fraction ++ rest)) =
      (first :: more).length := by
    rw [longest, digitCount_append hwhole]
    simp [digitCount]
  have hbest : best (first :: more ++ '.' :: (fraction ++ rest)) table =
      (longest .float (first :: more ++ '.' :: (fraction ++ rest)), .float) := by
    refine best_of_most _ (.float, .float) (by decide) (hfloat ▸ by simp) ?_
    intro other hmem hother
    have hshape := shape_ne (by decide) hmem hother
    rw [hfloat]
    by_cases hdigits : other.1 = .integer
    · rw [hdigits, hinteger]
      simp
    · rw [List.cons_append, longest_of_isDigit hmem hfirst hdigits hshape]
      simp
  rw [hfloat] at hbest
  refine lexeme_of_best_float hbest (by simp) ?_
  rw [← hsplit, List.drop_left]
  exact hrest.head_ne (by decide)

end Classes

section Strings

-- Where a literal ends does not depend on what stands behind it, unless that is nothing at all or
-- a quote. The induction follows the literal.
theorem quotedLength_exchange {word more rest : List Char} {c : Char}
    (h : quotedLength (word ++ c :: more) = word.length) (hrest : rest.head? ≠ some '"') :
    quotedLength (word ++ rest) = word.length := by
  induction word using quotedLength.induct with
  | case1 =>
      -- A literal takes at least one character of what is there.
      rw [List.nil_append, List.length_nil] at h
      unfold quotedLength at h
      split at h <;> simp_all
  | case2 word =>
      rw [List.cons_append, quotedLength] at h
      rw [List.cons_append, quotedLength, h]
  | case3 word ih =>
      simp only [List.cons_append, quotedLength, List.length_cons, Nat.add_right_cancel_iff] at h ⊢
      exact ih h
  | case4 word hword =>
      cases word with
      | nil =>
          refine quotedLength.eq_4 _ fun tail htail => hrest ?_
          change rest = '"' :: tail at htail
          rw [htail, List.head?_cons]
      | cons d word =>
          have hnot : ∀ behind tail, d :: word ++ behind = '"' :: tail → False := by
            rintro behind tail htail
            rw [List.cons_append, List.cons.injEq] at htail
            exact hword word (by rw [htail.1])
          rw [List.cons_append, quotedLength.eq_4 _ (hnot _)] at h
          rw [List.cons_append, quotedLength.eq_4 _ (hnot _), h]
  | case5 d word hquote _ hslash ih =>
      have hnot : ∀ behind tail, d = '\\' → word ++ behind = '"' :: tail → False :=
        fun _ _ heq => absurd heq hslash
      rw [List.cons_append, quotedLength.eq_5 _ _ hquote (hnot _) hslash] at h
      rw [List.cons_append, quotedLength.eq_5 _ _ hquote (hnot _) hslash]
      simp only [List.length_cons, Nat.add_right_cancel_iff] at h ⊢
      exact ih h

end Strings

end Lexer

-- A token of a text that goes on behind it.
def Token.Inner (token : Token) : Prop :=
  ∃ text : List Char, token.kind = (Lexer.lexeme text).2 ∧
    token.literal = String.ofList (text.take (Lexer.lexeme text).1) ∧
      (Lexer.lexeme text).1 < text.length

namespace Lexer

open Pattern

theorem tokensFrom_blank {offset : Nat} {c : Char} {rest : List Char} (h : Text.isBlank c) :
    tokensFrom offset 0 (c :: rest) = tokensFrom (offset + c.utf8Size) 0 rest := by
  rw [tokensFrom, if_pos h]

theorem tokensFrom_visible {offset : Nat} {c : Char} {rest : List Char}
    (h : Text.isBlank c = false) :
    tokensFrom offset 0 (c :: rest) =
      ⟨(lexeme (c :: rest)).2, offset, String.ofList ((c :: rest).take (lexeme (c :: rest)).1)⟩ ::
        tokensFrom (offset + c.utf8Size) ((lexeme (c :: rest)).1 - 1) rest := by
  rw [tokensFrom, if_neg (by simp [h])]

theorem tokensFrom_of_length_le {offset inside : Nat} {text : List Char}
    (h : text.length ≤ inside) : tokensFrom offset inside text = [] := by
  induction text generalizing offset inside with
  | nil => rw [tokensFrom]
  | cons c rest ih =>
      cases inside with
      | zero => simp at h
      | succ inside => exact ih (by simpa using h)

-- Only the last token ends with its text.
theorem tokensFrom_inner (offset inside : Nat) (text : List Char) :
    ∀ token ∈ tokensFrom offset inside text,
      token.Inner ∨ (tokensFrom offset inside text).getLast? = some token := by
  induction text generalizing offset inside with
  | nil => simp [tokensFrom]
  | cons c rest ih =>
      cases inside with
      | succ inside => exact ih _ _
      | zero =>
          by_cases hblank : Text.isBlank c
          · rw [tokensFrom_blank hblank]
            exact ih _ _
          · rw [tokensFrom_visible (by simpa using hblank)]
            intro token hmem
            rw [List.mem_cons] at hmem
            obtain rfl | hmem := hmem
            · by_cases hlast : (lexeme (c :: rest)).1 < (c :: rest).length
              · exact .inl ⟨c :: rest, rfl, rfl, hlast⟩
              · rw [List.length_cons] at hlast
                right
                rw [tokensFrom_of_length_le (by omega)]
                rfl
            · obtain hinner | hlast := ih _ _ token hmem
              · exact .inl hinner
              · right
                rw [List.getLast?_cons, hlast]
                rfl

-- A string that does not end with its text is found again.
theorem piece_of_string {token : Token} (h : token.Inner) (hk : token.kind = .string) :
    Piece .string token.literal.toList ∧ token.literal.toList.head? = some '"' := by
  obtain ⟨text, hkind, hliteral, hinner⟩ := h
  obtain ⟨hlength, hpos⟩ := lexeme_string (hkind.symm.trans hk)
  rw [hlength] at hliteral hinner
  have hquote : ∃ more, text = '"' :: more := by
    unfold longest at hpos
    split at hpos <;> simp_all
  obtain ⟨more, rfl⟩ := hquote
  rw [longest] at hliteral hinner
  have hword : token.literal.toList = '"' :: more.take (quotedLength more) := by
    rw [hliteral, String.toList_ofList, List.take_succ_cons]
  rw [List.length_cons, Nat.add_lt_add_iff_right] at hinner
  obtain ⟨c, behind, hbehind⟩ := List.exists_cons_of_length_pos (l := more.drop (quotedLength more))
    (by rw [List.length_drop]; omega)
  have hfound : quotedLength (more.take (quotedLength more) ++ c :: behind) =
      (more.take (quotedLength more)).length := by
    rw [← hbehind, List.take_append_drop, List.length_take]
    omega
  rw [hword]
  refine ⟨⟨⟨'"', _, rfl, by decide⟩, fun rest hrest => ?_⟩, rfl⟩
  have hstring : longest .string ('"' :: more.take (quotedLength more) ++ rest) =
      ('"' :: more.take (quotedLength more)).length := by
    rw [List.cons_append, longest, quotedLength_exchange hfound (hrest.head_ne (by decide)),
      List.length_cons]
  have hbest : best ('"' :: more.take (quotedLength more) ++ rest) table =
      (longest .string ('"' :: more.take (quotedLength more) ++ rest), .string) := by
    refine best_of_most _ (.string, .string) (by decide) (hstring ▸ by simp) ?_
    intro other hmem hother
    rw [hstring, List.cons_append, longest_of_quote hmem (shape_ne (by decide) hmem hother)]
    simp
  rw [hstring] at hbest
  exact lexeme_of_best hbest (by simp) (by decide)

end Lexer

end Capuchin
