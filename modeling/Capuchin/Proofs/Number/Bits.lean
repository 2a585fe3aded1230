import Capuchin.Number.Float
import Mathlib

-- The bits of a float in the model of floats: a float made from bits has these bits.
namespace Capuchin

open Float.Model UnpackedFloat

namespace Binary32

variable {v : BitVec Format.binary32.numBits}

theorem unpackMantissa_toNat (v : BitVec Format.binary32.numBits) :
    (unpackMantissa v).toNat = v.toNat % 2 ^ 23 := by
  simp [unpackMantissa]

theorem unpackExponent_toNat (h : v.toNat < 2 ^ 31) :
    (unpackExponent v).toNat = v.toNat / 2 ^ 23 := by
  simp [unpackExponent, Nat.shiftRight_eq_div_pow]
  omega

theorem unpackSign_positive (h : v.toNat < 2 ^ 31) :
    Sign.ofBitVec (unpackSign v) = .positive := by
  have hzero : unpackSign v = 0#1 := by
    apply BitVec.eq_of_toNat_eq
    simp [unpackSign, Nat.shiftRight_eq_div_pow]
    omega
  rw [hzero]
  rfl

theorem packComponents_toNat (exponent : BitVec 8) (mantissa : BitVec 23) :
    (packComponents Format.binary32 .positive exponent mantissa).toNat =
      exponent.toNat * 2 ^ 23 + mantissa.toNat := by
  have hsign : (Sign.positive.toBitVec ++ exponent).toNat = exponent.toNat := by
    rw [BitVec.toNat_append]
    simp [Sign.toBitVec]
  rw [packComponents, BitVec.toNat_append, hsign, ← Nat.shiftLeft_add_eq_or_of_lt mantissa.isLt,
    Nat.shiftLeft_eq]

-- Zero and the magnitudes without a leading bit.
theorem pack_unpack_small (h : v.toNat < 2 ^ 31) (hfield : v.toNat / 2 ^ 23 = 0) :
    (pack Format.binary32 (unpack Format.binary32 v)).toNat = v.toNat := by
  have hm := unpackMantissa_toNat v
  have hsplit := Nat.div_add_mod' v.toNat (2 ^ 23)
  have hzero : unpackExponent v = 0#8 := by
    apply BitVec.eq_of_toNat_eq
    rw [unpackExponent_toNat h, hfield]
    rfl
  simp only [UnpackedFloat.unpack, unpackSign_positive h, hzero]
  rw [if_neg (by decide), if_true]
  by_cases hnone : unpackMantissa v = 0#23
  · have hbits : v.toNat = 0 := by
      simp only [hnone, BitVec.toNat_ofNat, Nat.zero_mod] at hm
      omega
    rw [dif_pos hnone, UnpackedFloat.pack, packedZero, packComponents_toNat, hbits]
    decide
  · have hlog : (unpackMantissa v).toNat.log2 + 1 ≠ Format.binary32.mantissaBits := by
      have hlt : (unpackMantissa v).toNat.log2 < 23 :=
        (Nat.log2_lt (by simpa [← BitVec.toNat_inj] using hnone)).mpr (BitVec.isLt _)
      simp only [Format.mantissaBits]
      omega
    rw [dif_neg hnone, UnpackedFloat.pack]
    dsimp only
    rw [if_neg (by decide), if_neg hlog, packComponents_toNat, BitVec.ofNat_toNat,
      BitVec.setWidth_eq]
    simp only [BitVec.toNat_ofNat, Nat.zero_mod, Nat.zero_mul, Nat.zero_add]
    omega

-- The magnitudes with a leading bit.
theorem pack_unpack_normal (h : v.toNat < 2 ^ 31) (hpos : v.toNat / 2 ^ 23 ≠ 0)
    (hfinite : v.toNat / 2 ^ 23 < 255) :
    (pack Format.binary32 (unpack Format.binary32 v)).toNat = v.toNat := by
  have he := unpackExponent_toNat h
  have hsplit := Nat.div_add_mod' v.toNat (2 ^ 23)
  have hone : unpackExponent v ≠ -1#8 := by
    intro heq
    rw [heq] at he
    simp at he
    omega
  have hzero : unpackExponent v ≠ 0#8 := by
    intro heq
    rw [heq] at he
    simp at he
    omega
  have hsignificand : (1#1 ++ unpackMantissa v).toNat = 2 ^ 23 + v.toNat % 2 ^ 23 := by
    rw [BitVec.toNat_append, ← Nat.shiftLeft_add_eq_or_of_lt (BitVec.isLt _),
      unpackMantissa_toNat]
    rfl
  have hlog : (2 ^ 23 + v.toNat % 2 ^ 23).log2 = 23 := by
    rw [Nat.log2_eq_iff (by omega)]
    omega
  have hbias : ((Format.binary32.exponentBias : Nat) : Int) = 127 := rfl
  have hfield : (((unpackExponent v).toNat : Int) - (127 + ((23 : Nat) : Int)) + 127 +
      ((23 : Nat) : Int)).toNat = v.toNat / 2 ^ 23 := by
    rw [← he]
    omega
  simp only [UnpackedFloat.unpack, unpackSign_positive h]
  rw [if_neg hone, if_neg hzero, UnpackedFloat.pack]
  simp only [hsignificand, hlog, hbias, hfield]
  rw [if_neg (by omega), if_pos (by decide), packComponents_toNat, BitVec.toNat_ofNat,
    BitVec.toNat_ofNat, Nat.add_mod_left, Nat.mod_mod, Nat.mod_eq_of_lt (by omega), hsplit]

theorem pack_unpack (h : v.toNat ≤ infinity) :
    (pack Format.binary32 (unpack Format.binary32 v)).toNat = v.toNat := by
  have hinfinity : infinity = 255 * 2 ^ 23 := by decide
  have hsplit := Nat.div_add_mod' v.toNat (2 ^ 23)
  by_cases hsmall : v.toNat / 2 ^ 23 = 0
  · exact pack_unpack_small (by omega) hsmall
  · by_cases hfinite : v.toNat / 2 ^ 23 < 255
    · exact pack_unpack_normal (by omega) hsmall hfinite
    · have hbits : v = 0x7F800000#32 := by
        apply BitVec.eq_of_toNat_eq
        change v.toNat = 255 * 2 ^ 23
        omega
      rw [hbits]
      decide

end Binary32

namespace FloatText

-- The bits of a positive float that is a number or infinite are kept.
theorem toBits_ofMagnitude {bits : Nat} (h : bits ≤ Binary32.infinity) :
    (ofMagnitude false bits).toBits.toNat = bits := by
  have hinfinity : Binary32.infinity < UInt32.size := by decide
  have hword : (UInt32.ofNat bits).toBitVec.toNat = bits := by
    change (UInt32.ofNat bits).toNat = bits
    exact UInt32.toNat_ofNat_of_lt' (by omega)
  have hpack := Binary32.pack_unpack (v := (UInt32.ofNat bits).toBitVec) (by omega)
  exact hpack.trans hword

end FloatText

end Capuchin
