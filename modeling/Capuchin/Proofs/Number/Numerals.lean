import Capuchin.Proofs.Number.ReadBack
import Mathlib

-- Integers as they are written in decimal. These texts, and no others, are read as integers.
namespace Capuchin

inductive Numeral.Sign where
  | plus | minus

def Numeral.Sign.symbol : Numeral.Sign → Char
  | plus => '+'
  | minus => '-'

-- Digits, at least one of them, behind at most one sign. There may be zeros in front.
structure Numeral where
  sign : Option Numeral.Sign
  digits : List (Fin 10)
  nonempty : digits ≠ []

namespace Numeral

def digitChars (digits : List (Fin 10)) : List Char := digits.map fun digit => digit.val.digitChar

def text (numeral : Numeral) : String :=
  String.ofList ((numeral.sign.map Sign.symbol).toList ++ digitChars numeral.digits)

-- The last digit counts ones, the one before it tens, and so on.
def positional (digits : List (Fin 10)) : Nat := Nat.ofDigits 10 (digits.reverse.map Fin.val)

def value (numeral : Numeral) : Int :=
  match numeral.sign with
  | some .minus => -positional numeral.digits
  | _ => positional numeral.digits

section Digits

theorem isDigit_of_mem_digitChars {digits : List (Fin 10)} :
    ∀ c ∈ digitChars digits, c.isDigit := by
  intro c hc
  obtain ⟨digit, -, rfl⟩ := List.mem_map.mp hc
  rw [Nat.isDigit_digitChar]
  exact decide_eq_true digit.isLt

theorem exists_digitChars {chars : List Char} (h : ∀ c ∈ chars, c.isDigit) :
    ∃ digits, digitChars digits = chars := by
  induction chars with
  | nil => exact ⟨[], rfl⟩
  | cons c chars ih =>
      obtain ⟨hc, hchars⟩ := List.forall_mem_cons.mp h
      obtain ⟨digits, rfl⟩ := ih hchars
      obtain ⟨hlow, hhigh⟩ := Char.isDigit_iff_toNat.mp hc
      have hzero : '0'.toNat = 48 := rfl
      have hnine : '9'.toNat = 57 := rfl
      have hdigit : c.toNat - 48 < 10 := by omega
      refine ⟨⟨c.toNat - 48, hdigit⟩ :: digits, List.cons_eq_cons.mpr ⟨?_, rfl⟩⟩
      rw [← Char.toNat_inj, Nat.toNat_digitChar_of_lt_ten hdigit]
      omega

-- Ten times what is read so far, and the next digit: that gives each digit the weight of its place.
theorem ofDigitChars_digitChars (digits : List (Fin 10)) :
    Nat.ofDigitChars 10 (digitChars digits) 0 = positional digits := by
  induction digits using List.reverseRecOn with
  | nil => rfl
  | append_singleton digits digit ih =>
      have hlast : digit.val.digitChar.toNat - '0'.toNat = digit := by
        rw [Nat.toNat_digitChar_of_lt_ten digit.isLt]
        exact Nat.add_sub_cancel_left 48 digit.val
      rw [digitChars, List.map_append, List.map_singleton, Nat.ofDigitChars_append,
        Nat.ofDigitChars_cons, Nat.ofDigitChars_nil, hlast, ← digitChars, ih, positional,
        positional, List.reverse_concat, List.map_cons, Nat.ofDigits_cons, Nat.add_comm]

end Digits

end Numeral

namespace Integer

open Numeral

theorem digitsValue?_eq_some_iff {chars : List Char} {n : Nat} :
    digitsValue? chars = some n ↔
      ∃ digits, digits ≠ [] ∧ digitChars digits = chars ∧ positional digits = n := by
  constructor
  · intro h
    rw [digitsValue?] at h
    split at h
    · rename_i hchars
      obtain ⟨digits, rfl⟩ := exists_digitChars (List.all_eq_true.mp hchars.2)
      rw [ofDigitChars_digitChars] at h
      exact ⟨digits, fun hnil => hchars.1 (by rw [hnil]; rfl), rfl, Option.some.inj h⟩
    · contradiction
  · rintro ⟨digits, hne, rfl, rfl⟩
    rw [← ofDigitChars_digitChars]
    exact digitsValue?_digits (List.map_eq_nil_iff.not.mpr hne) isDigit_of_mem_digitChars

theorem signedValue?_text (numeral : Numeral) :
    signedValue? numeral.text.toList = some numeral.value := by
  obtain ⟨sign, digits, hne⟩ := numeral
  have hvalue := digitsValue?_eq_some_iff.mpr ⟨digits, hne, rfl, rfl⟩
  rw [Numeral.text, String.toList_ofList]
  cases sign with
  | none =>
      have hchars : digitChars digits ≠ [] := List.map_eq_nil_iff.not.mpr hne
      have hplain := signedValue?_digits hchars isDigit_of_mem_digitChars
      rwa [ofDigitChars_digitChars] at hplain
  | some sign =>
      cases sign with
      | plus => exact map_magnitude_eq_some_iff.mpr ⟨_, hvalue, rfl⟩
      | minus => exact map_magnitude_eq_some_iff.mpr ⟨_, hvalue, rfl⟩

-- The numeral of a text that has a value has the sign that the text begins with.
theorem exists_numeral {chars : List Char} {n : Int} (h : signedValue? chars = some n) :
    ∃ numeral : Numeral, numeral.text = String.ofList chars ∧ numeral.value = n := by
  unfold signedValue? at h
  split at h
  all_goals
    obtain ⟨magnitude, hmagnitude, rfl⟩ := map_magnitude_eq_some_iff.mp h
    obtain ⟨digits, hne, rfl, rfl⟩ := digitsValue?_eq_some_iff.mp hmagnitude
  · exact ⟨⟨some .minus, digits, hne⟩, rfl, rfl⟩
  · exact ⟨⟨some .plus, digits, hne⟩, rfl, rfl⟩
  · exact ⟨⟨none, digits, hne⟩, rfl, rfl⟩

-- A text is read as an integer if it is a numeral of its value.
theorem read?_eq_some_iff {text : String} {value : Int32} :
    read? text = some value ↔
      ∃ numeral : Numeral, numeral.text = text ∧ numeral.value = value.toInt := by
  rw [read?, Option.bind_eq_some_iff]
  constructor
  · rintro ⟨n, hn, hvalue⟩
    obtain rfl := ofInt?_eq_some_iff.mp hvalue
    obtain ⟨numeral, htext, hnumeral⟩ := exists_numeral hn
    exact ⟨numeral, by rw [htext, String.ofList_toList], hnumeral⟩
  · rintro ⟨numeral, rfl, hvalue⟩
    exact ⟨numeral.value, signedValue?_text numeral, ofInt?_eq_some_iff.mpr hvalue⟩

theorem exists_toInt_eq_iff {n : Int} :
    (∃ value : Int32, n = value.toInt) ↔ n ∈ Set.Icc (-2 ^ 31) (2 ^ 31 - 1) := by
  constructor
  · rintro ⟨value, rfl⟩
    exact ⟨Int32.le_toInt value, Int.le_sub_one_of_lt (Int32.toInt_lt value)⟩
  · rintro ⟨hlow, hhigh⟩
    exact ⟨Int32.ofInt n, (Int32.toInt_ofInt_of_le hlow (Int.lt_of_le_sub_one hhigh)).symm⟩

-- No other text is read, and no numeral of a value that is out of range.
theorem read?_eq_none_iff {text : String} :
    read? text = none ↔ ¬∃ numeral : Numeral, numeral.text = text ∧
      numeral.value ∈ Set.Icc (-2 ^ 31) (2 ^ 31 - 1) := by
  simp only [Option.eq_none_iff_forall_ne_some, ne_eq, read?_eq_some_iff, ← exists_toInt_eq_iff]
  constructor
  · rintro h ⟨numeral, htext, value, hvalue⟩
    exact h value ⟨numeral, htext, hvalue⟩
  · rintro h value ⟨numeral, htext, hvalue⟩
    exact h ⟨numeral, htext, value, hvalue⟩

end Integer

end Capuchin
