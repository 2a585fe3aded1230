import Capuchin.Proofs.Number.Bits
import Capuchin.Proofs.Number.Decimals
import Mathlib

-- Texts of digits, and of digits with a point among them: what they are read as, and which numbers
-- have them.
namespace Capuchin

theorem isDigit_toDigits (n : Nat) : ∀ c ∈ Nat.toDigits 10 n, c.isDigit := fun _ hc =>
  Nat.isDigit_of_mem_toDigits (by decide) (by decide) hc

namespace Integer

-- A sign goes in front of what the digits come to.
theorem map_magnitude_eq_some_iff {signed : Int → Int} {found : Option Nat} {n : Int} :
    (found >>= fun m => pure (m : Int)).map signed = some n ↔
      ∃ m, found = some m ∧ signed m = n := by
  cases found <;> simp

theorem ofInt?_eq_some_iff {n : Int} {value : Int32} : ofInt? n = some value ↔ n = value.toInt := by
  rw [ofInt?]
  constructor
  · intro h
    split at h
    · obtain rfl := Option.some.inj h
      rw [Int32.toInt_ofInt_of_le (by omega) (by omega)]
    · contradiction
  · rintro rfl
    have hlow := Int32.le_toInt value
    have hhigh := Int32.toInt_lt value
    rw [if_pos (by omega), Int32.ofInt_toInt]

section Digits

variable {digits : List Char} (hne : digits ≠ []) (hdigits : ∀ c ∈ digits, c.isDigit)

include hne hdigits

theorem digitsValue?_digits : digitsValue? digits = some (Nat.ofDigitChars 10 digits 0) := by
  rw [digitsValue?, if_pos ⟨hne, List.all_eq_true.mpr hdigits⟩]

-- A digit is no sign.
theorem signedValue?_digits :
    signedValue? digits = some (Nat.ofDigitChars 10 digits 0 : Int) := by
  have hvalue := digitsValue?_digits hne hdigits
  obtain ⟨c, rest, rfl⟩ := List.exists_cons_of_ne_nil hne
  have hc : c.isDigit := hdigits c List.mem_cons_self
  unfold signedValue?
  split
  · simp_all
  · simp_all
  · rw [hvalue]
    rfl

theorem read?_digits :
    read? (String.ofList digits) =
      if Nat.ofDigitChars 10 digits 0 ≤ 2147483647 then
        some (Int32.ofInt (Nat.ofDigitChars 10 digits 0))
      else none := by
  rw [read?, String.toList_ofList, signedValue?_digits hne hdigits, Option.bind_some, ofInt?]
  congr 1
  simp only [eq_iff_iff]
  omega

end Digits

theorem text_ofInt {n : Nat} (h : n ≤ 2147483647) :
    text (Int32.ofInt n) = String.ofList (Nat.toDigits 10 n) := by
  have hvalue : (Int32.ofInt n).toInt = n := Int32.toInt_ofInt_of_le (by omega) (by omega)
  rw [text, hvalue]
  exact Nat.toString_eq_ofList_toDigits

-- A number of either sign is written so that its text has its value.
theorem signedValue?_toString (n : Int) : signedValue? (toString n).toList = some n := by
  have htext (m : Nat) : (Nat.repr m).toList = Nat.toDigits 10 m := String.toList_ofList
  rw [Int.toString_eq_repr, Int.repr_eq_if]
  split
  · rename_i hpos
    rw [htext, signedValue?_digits Nat.toDigits_ne_nil (isDigit_toDigits _),
      Nat.ofDigitChars_ten_toDigits, Int.toNat_of_nonneg hpos]
  · rename_i hneg
    have hmagnitude := digitsValue?_digits Nat.toDigits_ne_nil (isDigit_toDigits (-n).toNat)
    rw [Nat.ofDigitChars_ten_toDigits] at hmagnitude
    rw [String.toList_append, htext]
    exact map_magnitude_eq_some_iff.mpr ⟨_, hmagnitude, by omega⟩

theorem read?_text (value : Int32) : read? (text value) = some value := by
  rw [read?, text, signedValue?_toString, Option.bind_some, ofInt?_eq_some_iff]

end Integer

namespace FloatText

section Pointed

variable {whole fraction : List Char} (hne : whole ≠ []) (hw : ∀ c ∈ whole, c.isDigit)
  (hf : ∀ c ∈ fraction, c.isDigit)

include hne hw hf in
theorem parts?_pointed : parts? (whole ++ '.' :: fraction) = some ⟨whole, fraction, 0⟩ := by
  have htake : (whole ++ '.' :: fraction).takeWhile Char.isDigit = whole := by
    rw [List.takeWhile_append_of_pos hw]
    simp
  have hdrop : (whole ++ '.' :: fraction).dropWhile Char.isDigit = '.' :: fraction := by
    rw [List.dropWhile_append_of_pos hw]
    simp
  have hfraction : fraction.takeWhile Char.isDigit = fraction := List.takeWhile_eq_self_iff.mpr hf
  have hrest : fraction.dropWhile Char.isDigit = [] := List.dropWhile_eq_nil_iff.mpr hf
  simp [parts?, htake, hdrop, hfraction, hrest, hne, exponent?]

-- No word has a point.
theorem ofList_pointed_ne (word : String) (h : '.' ∉ word.toList) :
    String.ofList ((whole ++ '.' :: fraction).map Char.toLower) ≠ word := by
  rintro rfl
  apply h
  rw [String.toList_ofList, List.map_append, List.map_cons]
  exact List.mem_append_right _ List.mem_cons_self

include hne hw hf in
-- Digits, a point and digits are read as the number they are in decimal.
theorem read?_pointed :
    read? (String.ofList (whole ++ '.' :: fraction)) =
      some (ofMagnitude false
        (Binary32.ofDecimal (Nat.ofDigitChars 10 (whole ++ fraction) 0) (-fraction.length))) := by
  have hmagnitude : magnitude? (whole ++ '.' :: fraction) =
      some (Parts.magnitude ⟨whole, fraction, 0⟩) := by
    simp only [magnitude?]
    rw [if_neg, if_neg, parts?_pointed hne hw hf, Option.map_some]
    · exact ofList_pointed_ne _ (by decide)
    · rintro (h | h)
      · exact ofList_pointed_ne _ (by decide) h
      · exact ofList_pointed_ne _ (by decide) h
  obtain ⟨c, rest, rfl⟩ := List.exists_cons_of_ne_nil hne
  have hc : c.isDigit := hw c List.mem_cons_self
  rw [read?, String.toList_ofList]
  split
  · simp_all
  · simp_all
  · rw [hmagnitude, Option.map_some, Parts.magnitude, Int.zero_sub]

end Pointed

-- A text of digits with a point behind one of them, which denotes a magnitude.
def Positional (text : String) (bits : Nat) : Prop :=
  ∃ whole fraction : List Char, text = String.ofList (whole ++ '.' :: fraction) ∧ whole ≠ [] ∧
    (∀ c ∈ whole, c.isDigit) ∧ (∀ c ∈ fraction, c.isDigit) ∧
      Binary32.ofDecimal (Nat.ofDigitChars 10 (whole ++ fraction) 0) (-fraction.length) = bits

theorem Positional.read? {text : String} {bits : Nat} (h : Positional text bits) :
    read? text = some (ofMagnitude false bits) := by
  obtain ⟨whole, fraction, rfl, hne, hw, hf, rfl⟩ := h
  exact read?_pointed hne hw hf

section Digits

variable {digits : List Char} {position : Int} (hdigits : ∀ c ∈ digits, c.isDigit)
  (hne : digits ≠ [])

theorem isDigit_of_mem_zeros {c : Char} {count : Nat} (h : c ∈ List.replicate count '0') :
    c.isDigit := by
  rw [List.eq_of_mem_replicate h]
  rfl

theorem isDigit_of_mem_append {left right : List Char} (hl : ∀ c ∈ left, c.isDigit)
    (hr : ∀ c ∈ right, c.isDigit) : ∀ c ∈ left ++ right, c.isDigit := by
  intro c hc
  obtain hc | hc := List.mem_append.mp hc
  · exact hl c hc
  · exact hr c hc

include hdigits in
-- Zeros stand between the point and the digits.
theorem pointed_before (hposition : position ≤ 0) :
    Positional (pointed digits position)
      (Binary32.ofDecimal (Nat.ofDigitChars 10 digits 0) (position - digits.length)) := by
  refine ⟨['0'], List.replicate (-position).toNat '0' ++ digits, ?_, by simp, by simp,
    isDigit_of_mem_append (fun c => isDigit_of_mem_zeros) hdigits, ?_⟩
  · rw [pointed, if_pos hposition, ← String.toList_inj]
    simp
  · have hread : Nat.ofDigitChars 10 (['0'] ++ (List.replicate (-position).toNat '0' ++ digits)) 0 =
        Nat.ofDigitChars 10 digits 0 := by
      rw [Nat.ofDigitChars_append, Nat.ofDigitChars_append, Nat.ofDigitChars_replicate_zero]
      simp [Nat.ofDigitChars_cons]
    have hplace : -((List.replicate (-position).toNat '0' ++ digits).length : Int) =
        position - digits.length := by
      rw [List.length_append, List.length_replicate]
      omega
    rw [hread, hplace]

include hdigits hne in
-- Zeros stand between the digits and the point.
theorem pointed_behind (hposition : digits.length ≤ position.toNat)
    (hpos : 0 < Nat.ofDigitChars 10 digits 0) :
    Positional (pointed digits position)
      (Binary32.ofDecimal (Nat.ofDigitChars 10 digits 0) (position - digits.length)) := by
  have hlength : 0 < digits.length := List.length_pos_iff.mpr hne
  refine ⟨digits ++ List.replicate (position.toNat - digits.length) '0', ['0'], ?_,
    List.append_ne_nil_of_left_ne_nil hne _,
    isDigit_of_mem_append hdigits (fun c => isDigit_of_mem_zeros), by simp, ?_⟩
  · rw [pointed, if_neg (by omega), if_pos hposition, ← String.toList_inj]
    simp
  · have hread : Nat.ofDigitChars 10
        (digits ++ List.replicate (position.toNat - digits.length) '0' ++ ['0']) 0 =
          Nat.ofDigitChars 10 digits 0 * 10 ^ (position.toNat - digits.length + 1) := by
      rw [Nat.ofDigitChars_append, Nat.ofDigitChars_append, Nat.ofDigitChars_replicate_zero]
      simp only [Nat.ofDigitChars_cons, Nat.ofDigitChars_nil]
      norm_num
      ring
    have hplace : -((['0'].length : Nat) : Int) =
        position - digits.length - ((position.toNat - digits.length + 1 : Nat) : Int) := by
      simp only [List.length_singleton]
      omega
    rw [hread, hplace, Binary32.ofDecimal_mul_pow hpos]

include hdigits hne in
theorem pointed_among (hposition : 0 < position) (hlt : position.toNat < digits.length) :
    Positional (pointed digits position)
      (Binary32.ofDecimal (Nat.ofDigitChars 10 digits 0) (position - digits.length)) := by
  refine ⟨digits.take position.toNat, digits.drop position.toNat, ?_, ?_,
    fun c hc => hdigits c (List.mem_of_mem_take hc),
    fun c hc => hdigits c (List.mem_of_mem_drop hc), ?_⟩
  · rw [pointed, if_neg (by omega), if_neg (by omega), ← String.toList_inj]
    simp
  · rw [Ne, List.take_eq_nil_iff]
    rintro (hzero | hnil)
    · omega
    · exact hne hnil
  · have hplace : -((digits.drop position.toNat).length : Int) = position - digits.length := by
      rw [List.length_drop]
      omega
    rw [List.take_append_drop, hplace]

include hdigits hne in
-- The point makes the exponent.
theorem pointed_positional (hpos : 0 < Nat.ofDigitChars 10 digits 0) (position : Int) :
    Positional (pointed digits position)
      (Binary32.ofDecimal (Nat.ofDigitChars 10 digits 0) (position - digits.length)) := by
  by_cases hbefore : position ≤ 0
  · exact pointed_before hdigits hbefore
  · by_cases hbehind : digits.length ≤ position.toNat
    · exact pointed_behind hdigits hne hbehind hpos
    · exact pointed_among hdigits hne (by omega) (by omega)

end Digits

-- The magnitudes from one power of ten to another, and zero.
def Between (least first : Int) (value : Float32) : Prop :=
  value.toBits.toNat % signBit = 0 ∨
    (Binary32.ofDecimal 1 least ≤ value.toBits.toNat % signBit ∧
      value.toBits.toNat % signBit < Binary32.ofDecimal 1 first)

instance (least first : Int) (value : Float32) : Decidable (Between least first value) :=
  inferInstanceAs (Decidable (_ ∨ _))

-- The decades of the plain style hold the shortest decimals of the magnitudes in its range. The
-- least of these is a power of ten itself, so no decimal below it is the shortest one.
theorem shortest_plain {bits : Nat} (hne : bits ≠ 0) (hlow : Binary32.ofDecimal 1 (-4) ≤ bits)
    (hup : bits < Binary32.ofDecimal 1 16) {decimal : Binary32.Decimal}
    (hdecimal : Binary32.shortest bits = decimal) :
    style.leastPlain ≤ decimal.exponent + (Nat.toDigits 10 decimal.digits).length - 1 ∧
      decimal.exponent + (Nat.toDigits 10 decimal.digits).length - 1 < style.firstPowered := by
  have hfinite : bits < Binary32.infinity := hup.trans (by decide +kernel)
  have hread : Binary32.ofDecimal decimal.digits decimal.exponent = bits :=
    hdecimal ▸ Binary32.ofDecimal_shortest hne hfinite
  have hpos : 0 < decimal.digits := hdecimal ▸ Binary32.shortest_pos hne hfinite
  constructor
  · change (-4 : Int) ≤ _
    by_contra hless
    have hle : Binary32.ofDecimal decimal.digits decimal.exponent ≤
        Binary32.nearest (1 <<< 149) (10 ^ 4) := Binary32.ofDecimal_le_tenthPower (by omega)
    have hleast : Binary32.nearest (1 <<< 149) (10 ^ 4) = Binary32.ofDecimal 1 (-4) := by
      decide +kernel
    have hbits : bits = Binary32.ofDecimal 1 (-4) := by omega
    have hself : Binary32.shortest (Binary32.ofDecimal 1 (-4)) = ⟨1, -4⟩ := by decide +kernel
    rw [← hdecimal, hbits, hself] at hless
    exact hless (by decide)
  · change _ < (16 : Int)
    by_contra hless
    have hle : Binary32.nearest (10 ^ 16 <<< 149) 1 ≤
        Binary32.ofDecimal decimal.digits decimal.exponent :=
      Binary32.power_le_ofDecimal hpos (by omega)
    have hfirst : Binary32.nearest (10 ^ 16 <<< 149) 1 = Binary32.ofDecimal 1 16 := by
      decide +kernel
    omega

-- The magnitudes of the plain style are written with a point.
theorem magnitudeText_positional {bits : Nat}
    (h : bits = 0 ∨ (Binary32.ofDecimal 1 (-4) ≤ bits ∧ bits < Binary32.ofDecimal 1 16)) :
    Positional (magnitudeText bits) bits := by
  by_cases hzero : bits = 0
  · rw [hzero]
    exact ⟨['0'], ['0'], rfl, by simp, by simp, by simp, by decide +kernel⟩
  · obtain hnone | ⟨hlow, hup⟩ := h
    · exact absurd hnone hzero
    · have hfinite : bits < Binary32.infinity := hup.trans (by decide +kernel)
      have hread := Binary32.ofDecimal_shortest hzero hfinite
      have hpos := Binary32.shortest_pos hzero hfinite
      rw [magnitudeText, if_neg hzero, if_neg hfinite.ne, decimalText]
      generalize hdecimal : Binary32.shortest bits = decimal at hread hpos
      have hplain := shortest_plain hzero hlow hup hdecimal
      have hdigits := isDigit_toDigits decimal.digits
      have hvalue : Nat.ofDigitChars 10 (Nat.toDigits 10 decimal.digits) 0 = decimal.digits :=
        Nat.ofDigitChars_ten_toDigits
      have hexponent : decimal.exponent + (Nat.toDigits 10 decimal.digits).length - 1 + 1 -
          (Nat.toDigits 10 decimal.digits).length = decimal.exponent := by omega
      have hpositional := pointed_positional hdigits Nat.toDigits_ne_nil (by rwa [hvalue])
        (decimal.exponent + (Nat.toDigits 10 decimal.digits).length - 1 + 1)
      rw [hvalue, hexponent, hread] at hpositional
      simp only [hplain, and_self, if_true]
      exact hpositional

-- The positive floats of the plain style are written with a point and read back.
theorem text_positional {bits : Nat} (hbits : bits ≤ Binary32.infinity)
    (h : Between (-4) 16 (ofMagnitude false bits)) :
    Positional (text (ofMagnitude false bits)) bits := by
  have hinfinity : Binary32.infinity < signBit := by decide
  have hmod : bits % signBit = bits := Nat.mod_eq_of_lt (by omega)
  rw [Between, toBits_ofMagnitude hbits, hmod] at h
  have hpositional := magnitudeText_positional h
  simp only [text, toBits_ofMagnitude hbits, hmod]
  rw [if_neg (by omega), if_neg (by omega), String.empty_append]
  exact hpositional

end FloatText

end Capuchin
