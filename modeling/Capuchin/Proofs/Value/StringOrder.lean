import Capuchin.Value.Operation
import Mathlib

-- Strings are ordered by the numbers of their characters: the order of their bytes is that one.
namespace Capuchin

-- One of the shapes that a character takes in bytes. The first byte holds the upper bits of the
-- number above `lead`, and each of the `count` bytes behind it holds six bits more.
structure ByteForm where
  lead : Nat
  count : Nat
  first : Nat
  limit : Nat
  deriving DecidableEq

namespace ByteForm

def all : List ByteForm :=
  [⟨0, 0, 0, 0x80⟩, ⟨0xC0, 1, 0x80, 0x800⟩, ⟨0xE0, 2, 0x800, 0x10000⟩,
    ⟨0xF0, 3, 0x10000, 0x110000⟩]

def sextets (lead : Nat) : Nat → Nat → List UInt8
  | 0, number => [UInt8.ofNat (lead + number)]
  | count + 1, number => sextets lead count (number / 64) ++ [UInt8.ofNat (number % 64 + 128)]

theorem sextets_eq_cons (lead count number : Nat) :
    ∃ rest, sextets lead count number = UInt8.ofNat (lead + number / 64 ^ count) :: rest := by
  induction count generalizing number with
  | zero => exact ⟨[], by simp [sextets]⟩
  | succ count ih =>
      obtain ⟨rest, hrest⟩ := ih (number / 64)
      refine ⟨rest ++ [UInt8.ofNat (number % 64 + 128)], ?_⟩
      rw [sextets, hrest, List.cons_append, Nat.div_div_eq_div_mul, ← Nat.pow_succ']

theorem ofNat_lt {m n : Nat} (h : m < n) (hn : n < 256) : UInt8.ofNat m < UInt8.ofNat n := by
  rw [UInt8.lt_iff_toNat_lt, UInt8.toNat_ofNat', UInt8.toNat_ofNat']
  omega

-- A difference in the upper bits decides, whatever stands behind it.
theorem sextets_append_lt {lead count m n : Nat} (h : m < n)
    (hn : lead + n / 64 ^ count < 256) (s t : List UInt8) :
    sextets lead count m ++ s < sextets lead count n ++ t := by
  induction count generalizing m n s t with
  | zero =>
      rw [Nat.pow_zero, Nat.div_one] at hn
      exact List.cons_lt_cons_iff.mpr (.inl (ofNat_lt (by omega) hn))
  | succ count ih =>
      rw [Nat.pow_succ', ← Nat.div_div_eq_div_mul] at hn
      simp only [sextets, List.append_assoc]
      by_cases hupper : m / 64 < n / 64
      · exact ih hupper hn _ _
      · have hequal : m / 64 = n / 64 := by omega
        rw [hequal]
        refine List.append_left_lt (List.cons_lt_cons_iff.mpr (.inl (ofNat_lt ?_ ?_)))
        · omega
        · omega

theorem sextets_append_lt_of_lead {lead other count more m n : Nat}
    (h : lead + m / 64 ^ count < other + n / 64 ^ more) (hn : other + n / 64 ^ more < 256)
    (s t : List UInt8) : sextets lead count m ++ s < sextets other more n ++ t := by
  obtain ⟨rest, hrest⟩ := sextets_eq_cons lead count m
  obtain ⟨behind, hbehind⟩ := sextets_eq_cons other more n
  rw [hrest, hbehind, List.cons_append, List.cons_append]
  exact List.cons_lt_cons_iff.mpr (.inl (ofNat_lt h hn))

-- The numbers of a form fit into a byte with its lead, and the first bytes of a later form are
-- above those of an earlier one.
theorem lead_bounds : ∀ form ∈ all, form.lead + (form.limit - 1) / 64 ^ form.count < 256 ∧
    ∀ other ∈ all, form ≠ other → form.limit ≤ other.first ∧
      form.lead + (form.limit - 1) / 64 ^ form.count < other.lead ∨ other.limit ≤ form.first := by
  decide

end ByteForm

open ByteForm

theorem toNat_lt_limit (c : Char) : c.toNat < 0x110000 := by
  obtain hlow | ⟨-, hhigh⟩ := c.valid
  · exact Nat.lt_trans hlow (by decide)
  · exact hhigh

theorem utf8EncodeChar_eq_sextets (c : Char) :
    ∃ form ∈ all, form.first ≤ c.toNat ∧ c.toNat < form.limit ∧
      String.utf8EncodeChar c = sextets form.lead form.count c.toNat := by
  have hlimit := toNat_lt_limit c
  simp only [String.utf8EncodeChar, Char.toNat_val]
  split_ifs with hone htwo hthree
  · refine ⟨⟨0, 0, 0, 0x80⟩, by decide, Nat.zero_le _, Nat.lt_succ_of_le hone, ?_⟩
    rw [sextets, Nat.zero_add]
  · have hlead : c.toNat / 64 % 32 = c.toNat / 64 := by omega
    refine ⟨⟨0xC0, 1, 0x80, 0x800⟩, by decide, Nat.lt_of_not_le hone, Nat.lt_succ_of_le htwo, ?_⟩
    simp [sextets, hlead, Nat.add_comm]
  · have hlead : c.toNat / 4096 % 16 = c.toNat / 4096 := by omega
    refine ⟨⟨0xE0, 2, 0x800, 0x10000⟩, by decide, Nat.lt_of_not_le htwo,
      Nat.lt_succ_of_le hthree, ?_⟩
    simp [sextets, hlead, Nat.add_comm, Nat.div_div_eq_div_mul]
  · have hlead : c.toNat / 262144 % 8 = c.toNat / 262144 := by omega
    refine ⟨⟨0xF0, 3, 0x10000, 0x110000⟩, by decide, Nat.lt_of_not_le hthree, hlimit, ?_⟩
    simp [sextets, hlead, Nat.add_comm, Nat.div_div_eq_div_mul]

theorem utf8EncodeChar_append_lt {c d : Char} (h : c.toNat < d.toNat) (s t : List UInt8) :
    String.utf8EncodeChar c ++ s < String.utf8EncodeChar d ++ t := by
  obtain ⟨form, hform, hfirst, hlimit, hc⟩ := utf8EncodeChar_eq_sextets c
  obtain ⟨other, hother, hfirst', hlimit', hd⟩ := utf8EncodeChar_eq_sextets d
  have hbyte : other.lead + d.toNat / 64 ^ other.count < 256 := by
    have hle : d.toNat / 64 ^ other.count ≤ (other.limit - 1) / 64 ^ other.count :=
      Nat.div_le_div_right (by omega)
    have hbound := (lead_bounds other hother).1
    omega
  rw [hc, hd]
  by_cases hsame : form = other
  · subst hsame
    exact sextets_append_lt h hbyte s t
  · obtain ⟨-, hlead⟩ | hbelow := (lead_bounds form hform).2 other hother hsame
    · have hle : c.toNat / 64 ^ form.count ≤ (form.limit - 1) / 64 ^ form.count :=
        Nat.div_le_div_right (by omega)
      have hbelow : form.lead + c.toNat / 64 ^ form.count < other.lead := by omega
      exact sextets_append_lt_of_lead (Nat.lt_of_lt_of_le hbelow (Nat.le_add_right _ _)) hbyte s t
    · omega

-- The numbers of the characters of a text.
def scalars (text : String) : List Nat := text.toList.map Char.toNat

theorem scalars_injective {a b : String} (h : scalars a = scalars b) : a = b :=
  String.toList_injective (List.map_injective_iff.mpr (fun _ _ => Char.toNat_inj.mp) h)

theorem flatMap_utf8EncodeChar_lt {s t : List Char} (h : s.map Char.toNat < t.map Char.toNat) :
    s.flatMap String.utf8EncodeChar < t.flatMap String.utf8EncodeChar := by
  induction s generalizing t with
  | nil =>
      cases t with
      | nil => simp at h
      | cons d t =>
          obtain ⟨byte, bytes, hbytes⟩ :=
            List.exists_cons_of_ne_nil (String.utf8EncodeChar_ne_nil (c := d))
          rw [List.flatMap_cons, hbytes]
          exact List.nil_lt_cons _ _
  | cons c s ih =>
      cases t with
      | nil => simp at h
      | cons d t =>
          rw [List.map_cons, List.map_cons, List.cons_lt_cons_iff] at h
          rw [List.flatMap_cons, List.flatMap_cons]
          obtain hless | ⟨hsame, hrest⟩ := h
          · exact utf8EncodeChar_append_lt hless _ _
          · rw [Char.toNat_inj.mp hsame]
            exact List.append_left_lt (ih hrest)

theorem utf8_lt_iff (a b : String) : utf8 a < utf8 b ↔ scalars a < scalars b := by
  refine ⟨fun h => ?_, flatMap_utf8EncodeChar_lt⟩
  obtain hless | hsame | hgreater := lt_trichotomy (scalars a) (scalars b)
  · exact hless
  · rw [scalars_injective hsame] at h
    exact absurd h (List.lt_irrefl _)
  · exact absurd h (List.lt_asymm (flatMap_utf8EncodeChar_lt hgreater))

theorem bytesLess_eq (a b : String) : bytesLess a b = decide (scalars a < scalars b) :=
  decide_eq_decide.mpr (utf8_lt_iff a b)

theorem bytesLessEqual_eq (a b : String) :
    bytesLessEqual a b = decide (scalars a ≤ scalars b) := by
  rw [bytesLessEqual, bytesLess_eq, ← decide_not]
  exact decide_eq_decide.mpr not_lt

-- The operator is defined on the two values and gives true.
def BinaryOp.Holds (op : BinaryOp) (left right : Value) : Prop :=
  op.apply left right = .ok (.boolean true)

section

variable (a b : String)

theorem apply_strings {op : BinaryOp} (h : op ≠ .add) :
    op.apply (.string a) (.string b) = Operation.compared op .string
      (op.compare? (fun s t => decide (s < t)) (fun s t => decide (s ≤ t)) (scalars a)
        (scalars b)) := by
  have hequal : (a == b) = (scalars a == scalars b) := by
    rw [Bool.eq_iff_iff, beq_iff_eq, beq_iff_eq]
    exact ⟨congrArg scalars, scalars_injective⟩
  cases op <;>
    first
      | exact absurd rfl h
      | simp [BinaryOp.apply, Operation.onStrings, BinaryOp.compare?, bytesLess_eq,
          bytesLessEqual_eq, bne, hequal]

theorem holds_strings_iff (op : BinaryOp) :
    op.Holds (.string a) (.string b) ↔
      op.compare? (fun s t => decide (s < t)) (fun s t => decide (s ≤ t)) (scalars a) (scalars b) =
        some true := by
  by_cases hadd : op = .add
  · subst hadd
    simp [BinaryOp.Holds, BinaryOp.apply, Operation.onStrings, BinaryOp.compare?]
  · rw [BinaryOp.Holds, apply_strings a b hadd]
    generalize op.compare? _ _ (scalars a) (scalars b) = outcome
    cases outcome <;> simp [Operation.compared]

theorem less_holds_iff :
    BinaryOp.less.Holds (.string a) (.string b) ↔ scalars a < scalars b := by
  simp [holds_strings_iff, BinaryOp.compare?]

-- One string is less than the other, they are equal, or the first is greater.
theorem existsUnique_holds :
    ∃! op, op ∈ [BinaryOp.less, .equal, .greater] ∧ op.Holds (.string a) (.string b) := by
  simp only [List.mem_cons, List.not_mem_nil, or_false]
  obtain hless | hsame | hgreater := lt_trichotomy (scalars a) (scalars b)
  · refine ⟨.less, ⟨.inl rfl, (less_holds_iff a b).mpr hless⟩, ?_⟩
    rintro other ⟨rfl | rfl | rfl, hholds⟩
    · rfl
    · simp [holds_strings_iff, BinaryOp.compare?, hless.ne] at hholds
    · simp [holds_strings_iff, BinaryOp.compare?, hless.not_gt] at hholds
  · refine ⟨.equal, ⟨.inr (.inl rfl), ?_⟩, ?_⟩
    · simp [holds_strings_iff, BinaryOp.compare?, hsame]
    · rintro other ⟨rfl | rfl | rfl, hholds⟩
      · simp [holds_strings_iff, BinaryOp.compare?, hsame] at hholds
      · rfl
      · simp [holds_strings_iff, BinaryOp.compare?, hsame] at hholds
  · refine ⟨.greater, ⟨.inr (.inr rfl), ?_⟩, ?_⟩
    · simp [holds_strings_iff, BinaryOp.compare?, hgreater]
    · rintro other ⟨rfl | rfl | rfl, hholds⟩
      · simp [holds_strings_iff, BinaryOp.compare?, hgreater.not_gt] at hholds
      · simp [holds_strings_iff, BinaryOp.compare?, hgreater.ne'] at hholds
      · rfl

theorem scalars_append : scalars (a ++ b) = scalars a ++ scalars b := by
  rw [scalars, String.toList_append, List.map_append, scalars, scalars]

end

-- The relational operators on strings compare the numbers of the characters from the left. That
-- is a strict order with the equality of strings, and text put in front does not change it.
theorem strings_ordered (a b c : String) :
    BinaryOp.less.apply (.string a) (.string b) = .ok (.boolean (scalars a < scalars b)) ∧
      BinaryOp.greater.apply (.string a) (.string b) = .ok (.boolean (scalars b < scalars a)) ∧
      BinaryOp.lessEqual.apply (.string a) (.string b) = .ok (.boolean (scalars a ≤ scalars b)) ∧
      BinaryOp.greaterEqual.apply (.string a) (.string b) =
        .ok (.boolean (scalars b ≤ scalars a)) ∧
      (∃! op, op ∈ [BinaryOp.less, .equal, .greater] ∧ op.Holds (.string a) (.string b)) ∧
      (BinaryOp.lessEqual.Holds (.string a) (.string b) ↔
        ¬BinaryOp.greater.Holds (.string a) (.string b)) ∧
      (BinaryOp.greaterEqual.Holds (.string a) (.string b) ↔
        ¬BinaryOp.less.Holds (.string a) (.string b)) ∧
      (BinaryOp.less.Holds (.string a) (.string b) → BinaryOp.less.Holds (.string b) (.string c) →
        BinaryOp.less.Holds (.string a) (.string c)) ∧
      ∃ left right, BinaryOp.add.apply (.string c) (.string a) = .ok left ∧
        BinaryOp.add.apply (.string c) (.string b) = .ok right ∧
        (BinaryOp.less.Holds left right ↔ BinaryOp.less.Holds (.string a) (.string b)) := by
  refine ⟨apply_strings a b (by decide), apply_strings a b (by decide),
    apply_strings a b (by decide), apply_strings a b (by decide), ?_, ?_, ?_, ?_, ?_⟩
  · exact existsUnique_holds a b
  · simp [holds_strings_iff, BinaryOp.compare?]
  · simp [holds_strings_iff, BinaryOp.compare?]
  · rw [less_holds_iff, less_holds_iff, less_holds_iff]
    exact lt_trans
  · refine ⟨.string (c ++ a), .string (c ++ b), rfl, rfl, ?_⟩
    have hmono : StrictMono fun text => scalars c ++ text := fun _ _ => List.append_left_lt
    rw [less_holds_iff, less_holds_iff, scalars_append, scalars_append]
    exact hmono.lt_iff_lt

-- A character of four bytes is greater than the last ones of three bytes and of two.
theorem strings_ordered_widths :
    BinaryOp.less.Holds (.string "é") (.string "\uFFFD") ∧
      BinaryOp.less.Holds (.string "\uFFFD") (.string "😀") ∧
      BinaryOp.less.Holds (.string "é") (.string "😀") := by
  have hfirst : BinaryOp.less.Holds (.string "é") (.string "\uFFFD") := by
    rw [less_holds_iff]
    decide
  have hsecond : BinaryOp.less.Holds (.string "\uFFFD") (.string "😀") := by
    rw [less_holds_iff]
    decide
  obtain ⟨-, -, -, -, -, -, -, htrans, -⟩ := strings_ordered "é" "\uFFFD" "😀"
  exact ⟨hfirst, hsecond, htrans hfirst hsecond⟩

end Capuchin
