import Capuchin.Proofs.Token.Seams
import Mathlib

-- The shapes of tokens as regular languages, and the scanners as searches for longest words.
namespace Capuchin.Pattern

open scoped Computability

-- The texts of one character of a class.
def one (p : Char → Bool) : Language Char := {word | ∃ c, p c ∧ word = [c]}

-- What stands inside a string: a character that is neither quote nor backslash, or a backslash
-- with a quote behind it.
def quoted : Language Char := one (fun c => c != '"' && c != '\\') + {['\\', '"']}

-- What may end a string: a quote, a backslash, or nothing at all.
def ending : Language Char := 1 + one fun c => c == '"' || c == '\\'

def language : Pattern → Language Char
  | .word text => {text.toList}
  | .integer => one Char.isDigit * (one Char.isDigit)∗
  | .float => one Char.isDigit * (one Char.isDigit)∗ * {['.']} * (one Char.isDigit)∗
  | .string => {['"']} * quoted∗ * ending
  | .identifier => one isIdentifierStart * (one isIdentifierPart)∗

section Members

variable {p q : Char → Bool} {word : List Char}

theorem mem_star_one : word ∈ (one p)∗ ↔ ∀ c ∈ word, p c := by
  rw [Language.mem_kstar]
  constructor
  · rintro ⟨pieces, rfl, hpieces⟩ c hc
    obtain ⟨piece, hmem, hpiece⟩ := List.mem_flatten.mp hc
    obtain ⟨d, hd, rfl⟩ := hpieces piece hmem
    obtain rfl := List.mem_singleton.mp hpiece
    exact hd
  · intro h
    refine ⟨word.map ([·]), ?_, ?_⟩
    · rw [← List.flatMap_def, List.flatMap_singleton']
    · intro piece hmem
      obtain ⟨c, hc, rfl⟩ := List.mem_map.mp hmem
      exact ⟨c, h c hc, rfl⟩

theorem mem_one_mul_star :
    word ∈ one p * (one q)∗ ↔ ∃ c rest, word = c :: rest ∧ p c ∧ ∀ d ∈ rest, q d := by
  rw [Language.mem_mul]
  constructor
  · rintro ⟨_, ⟨c, hc, rfl⟩, rest, hrest, rfl⟩
    exact ⟨c, rest, rfl, hc, mem_star_one.mp hrest⟩
  · rintro ⟨c, rest, rfl, hc, hrest⟩
    exact ⟨[c], ⟨c, hc, rfl⟩, rest, mem_star_one.mpr hrest, rfl⟩

theorem mem_integer : word ∈ language .integer ↔ word ≠ [] ∧ ∀ c ∈ word, c.isDigit := by
  rw [language, mem_one_mul_star]
  constructor
  · rintro ⟨c, rest, rfl, hc, hrest⟩
    exact ⟨by simp, List.forall_mem_cons.mpr ⟨hc, hrest⟩⟩
  · rintro ⟨hne, hdigits⟩
    obtain ⟨c, rest, rfl⟩ := List.exists_cons_of_ne_nil hne
    obtain ⟨hc, hrest⟩ := List.forall_mem_cons.mp hdigits
    exact ⟨c, rest, rfl, hc, hrest⟩

theorem mem_float : word ∈ language .float ↔
    ∃ whole fraction, word = whole ++ '.' :: fraction ∧ whole ≠ [] ∧ (∀ c ∈ whole, c.isDigit) ∧
      ∀ c ∈ fraction, c.isDigit := by
  rw [language, Language.mem_mul]
  constructor
  · rintro ⟨_, hpointed, fraction, hfraction, rfl⟩
    obtain ⟨whole, hwhole, _, rfl, rfl⟩ := Language.mem_mul.mp hpointed
    obtain ⟨hne, hdigits⟩ := mem_integer.mp hwhole
    exact ⟨whole, fraction, by simp, hne, hdigits, mem_star_one.mp hfraction⟩
  · rintro ⟨whole, fraction, rfl, hne, hdigits, hfraction⟩
    refine ⟨whole ++ ['.'], ?_, fraction, mem_star_one.mpr hfraction, by simp⟩
    exact Language.mem_mul.mpr ⟨whole, mem_integer.mpr ⟨hne, hdigits⟩, ['.'], rfl, rfl⟩

theorem mem_string : word ∈ language .string ↔
    ∃ pieces last, word = '"' :: (List.flatten pieces ++ last) ∧
      (∀ piece ∈ pieces, piece ∈ quoted) ∧ last ∈ ending := by
  rw [language, Language.mem_mul]
  constructor
  · rintro ⟨_, hopened, last, hlast, rfl⟩
    obtain ⟨_, rfl, body, hbody, rfl⟩ := Language.mem_mul.mp hopened
    obtain ⟨pieces, rfl, hpieces⟩ := Language.mem_kstar.mp hbody
    exact ⟨pieces, last, by simp, hpieces, hlast⟩
  · rintro ⟨pieces, last, rfl, hpieces, hlast⟩
    refine ⟨'"' :: pieces.flatten, ?_, last, hlast, by simp⟩
    exact Language.mem_mul.mpr
      ⟨['"'], rfl, pieces.flatten, Language.mem_kstar.mpr ⟨pieces, rfl, hpieces⟩, rfl⟩

theorem mem_quoted : word ∈ quoted ↔
    (∃ c, c ≠ '"' ∧ c ≠ '\\' ∧ word = [c]) ∨ word = ['\\', '"'] := by
  rw [quoted, Language.mem_add]
  simp only [one, Bool.and_eq_true, bne_iff_ne, and_assoc]
  rfl

theorem mem_ending : word ∈ ending ↔ word = [] ∨ word = ['"'] ∨ word = ['\\'] := by
  rw [ending, Language.mem_add, Language.mem_one]
  simp only [one, Bool.or_eq_true, beq_iff_eq]
  constructor
  · rintro (hnil | ⟨c, rfl | rfl, rfl⟩) <;> simp_all
  · rintro (hnil | rfl | rfl)
    · exact .inl hnil
    · exact .inr ⟨'"', .inl rfl, rfl⟩
    · exact .inr ⟨'\\', .inr rfl, rfl⟩

end Members

-- Of the beginnings of a text that are in a language, one with so many characters is the longest.
-- Zero stands for none.
structure IsLongest (words : Language Char) (text : List Char) (length : Nat) : Prop where
  mem : 0 < length → text.take length ∈ words
  le : ∀ word ∈ words, word <+: text → word.length ≤ length

theorem length_le_takeWhile {p : Char → Bool} {word text : List Char} (h : word <+: text)
    (hword : ∀ c ∈ word, p c) : word.length ≤ (text.takeWhile p).length := by
  obtain ⟨rest, rfl⟩ := h
  rw [List.takeWhile_append_of_pos hword, List.length_append]
  omega

theorem take_takeWhile (p : Char → Bool) (text : List Char) :
    text.take (text.takeWhile p).length = text.takeWhile p :=
  (List.prefix_iff_eq_take.mp (List.takeWhile_prefix p)).symm

section Longest

variable (text : List Char)

theorem isLongest_word (word : String) :
    IsLongest (language (.word word)) text (longest (.word word) text) := by
  constructor
  · intro hpos
    rw [longest] at hpos ⊢
    split at hpos
    · rename_i hprefix
      rw [if_pos hprefix]
      exact (List.prefix_iff_eq_take.mp (List.isPrefixOf_iff_prefix.mp hprefix)).symm
    · omega
  · rintro _ rfl hprefix
    rw [longest, if_pos (List.isPrefixOf_iff_prefix.mpr hprefix)]

theorem isLongest_integer : IsLongest (language .integer) text (longest .integer text) := by
  constructor
  · intro hpos
    rw [longest, take_digitCount]
    refine mem_integer.mpr ⟨List.ne_nil_of_length_pos hpos, fun c hc => List.mem_takeWhile_imp hc⟩
  · intro word hword hprefix
    exact length_le_takeWhile hprefix (mem_integer.mp hword).2

theorem isLongest_float : IsLongest (language .float) text (longest .float text) := by
  constructor
  · intro hpos
    obtain ⟨rest, htext, hne⟩ := pointed_of_longest_float hpos
    have hdigits : ∀ c ∈ text.takeWhile Char.isDigit, c.isDigit :=
      fun c hc => List.mem_takeWhile_imp hc
    generalize text.takeWhile Char.isDigit = whole at htext hne hdigits
    subst htext
    refine mem_float.mpr ⟨whole, rest.takeWhile Char.isDigit, ?_, hne, hdigits,
      fun c hc => List.mem_takeWhile_imp hc⟩
    rw [longest_float_pointed hne hdigits, Nat.add_assoc, List.take_length_add_append,
      Nat.add_comm 1, List.take_succ_cons, take_digitCount]
  · intro word hword hprefix
    obtain ⟨whole, fraction, rfl, hne, hdigits, hfraction⟩ := mem_float.mp hword
    obtain ⟨rest, rfl⟩ := hprefix
    rw [List.append_assoc, List.cons_append, longest_float_pointed hne hdigits,
      digitCount_append hfraction, List.length_append, List.length_cons]
    omega

theorem isLongest_identifier :
    IsLongest (language .identifier) text (longest .identifier text) := by
  constructor
  · intro hpos
    cases text with
    | nil => simp [longest] at hpos
    | cons c rest =>
        rw [longest] at hpos ⊢
        split at hpos
        · rename_i hc
          rw [if_pos hc, List.take_succ_cons, take_takeWhile]
          exact mem_one_mul_star.mpr ⟨c, _, rfl, hc, fun d hd => List.mem_takeWhile_imp hd⟩
        · omega
  · intro word hword hprefix
    obtain ⟨c, more, rfl, hc, hmore⟩ := mem_one_mul_star.mp hword
    obtain ⟨rest, rfl⟩ := hprefix
    rw [List.cons_append, longest, if_pos hc, List.length_cons]
    exact Nat.succ_le_succ (length_le_takeWhile (List.prefix_append more rest) hmore)

theorem take_quotedLength :
    ∃ pieces last, text.take (quotedLength text) = List.flatten pieces ++ last ∧
      (∀ piece ∈ pieces, piece ∈ quoted) ∧ last ∈ ending := by
  induction text using quotedLength.induct with
  | case1 => exact ⟨[], [], by simp, by simp, mem_ending.mpr (.inl rfl)⟩
  | case2 rest =>
      exact ⟨[], ['"'], by simp [quotedLength], by simp, mem_ending.mpr (.inr (.inl rfl))⟩
  | case3 rest ih =>
      obtain ⟨pieces, last, htake, hpieces, hlast⟩ := ih
      refine ⟨['\\', '"'] :: pieces, last, ?_, ?_, hlast⟩
      · rw [quotedLength, List.take_succ_cons, List.take_succ_cons, htake]
        simp
      · exact List.forall_mem_cons.mpr ⟨mem_quoted.mpr (.inr rfl), hpieces⟩
  | case4 rest hrest =>
      exact ⟨[], ['\\'], by simp [quotedLength], by simp, mem_ending.mpr (.inr (.inr rfl))⟩
  | case5 c rest hquote hboth hslash ih =>
      obtain ⟨pieces, last, htake, hpieces, hlast⟩ := ih
      refine ⟨[c] :: pieces, last, ?_, ?_, hlast⟩
      · rw [quotedLength.eq_5 _ _ hquote hboth hslash, List.take_succ_cons, htake]
        simp
      · exact List.forall_mem_cons.mpr ⟨mem_quoted.mpr (.inl ⟨c, hquote, hslash, rfl⟩), hpieces⟩

-- No way to cut a text into the pieces of a string gets further.
theorem length_le_quotedLength {pieces : List (List Char)} {last rest : List Char}
    (hpieces : ∀ piece ∈ pieces, piece ∈ quoted) (hlast : last ∈ ending) :
    (pieces.flatten ++ last).length ≤ quotedLength (pieces.flatten ++ last ++ rest) := by
  induction pieces with
  | nil =>
      obtain rfl | rfl | rfl := mem_ending.mp hlast
      · simp
      · simp [quotedLength]
      · obtain _ | ⟨c, rest⟩ := rest
        · simp [quotedLength]
        · by_cases hc : c = '"' <;> simp [quotedLength, hc]
  | cons piece pieces ih =>
      obtain ⟨hpiece, hpieces⟩ := List.forall_mem_cons.mp hpieces
      have hrest := ih hpieces
      obtain ⟨c, hquote, hslash, rfl⟩ | rfl := mem_quoted.mp hpiece
      · simp only [List.flatten_cons, List.cons_append, List.nil_append, List.length_cons]
        rw [quotedLength.eq_5 _ _ hquote (fun _ hc _ => hslash hc) hslash]
        omega
      · simp only [List.flatten_cons, List.cons_append, List.nil_append, List.length_cons,
          quotedLength]
        omega

theorem isLongest_string : IsLongest (language .string) text (longest .string text) := by
  constructor
  · intro hpos
    have hquote : ∃ rest, text = '"' :: rest := by
      unfold longest at hpos
      split at hpos <;> simp_all
    obtain ⟨rest, rfl⟩ := hquote
    obtain ⟨pieces, last, htake, hpieces, hlast⟩ := take_quotedLength rest
    rw [longest, List.take_succ_cons, htake]
    exact mem_string.mpr ⟨pieces, last, rfl, hpieces, hlast⟩
  · intro word hword hprefix
    obtain ⟨pieces, last, rfl, hpieces, hlast⟩ := mem_string.mp hword
    obtain ⟨rest, rfl⟩ := hprefix
    rw [List.cons_append, longest, List.length_cons]
    exact Nat.succ_le_succ (length_le_quotedLength hpieces hlast)

theorem isLongest (pattern : Pattern) : IsLongest pattern.language text (pattern.longest text) := by
  cases pattern with
  | word word => exact isLongest_word text word
  | integer => exact isLongest_integer text
  | float => exact isLongest_float text
  | string => exact isLongest_string text
  | identifier => exact isLongest_identifier text

end Longest

end Capuchin.Pattern
