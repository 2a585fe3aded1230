import Capuchin.Number.Shortest
import Capuchin.Proofs.Number.Rounding
import Mathlib

-- What decimals are read as, and that the shortest decimal of a magnitude reads back as it.
namespace Capuchin.Binary32

section Widths

variable {n k : Nat}

theorem lt_pow_length (n : Nat) : n < 10 ^ (Nat.toDigits 10 n).length :=
  (Nat.length_toDigits_le_iff (by decide) Nat.length_toDigits_pos).mp (Nat.le_refl _)

theorem pow_length_le (h : 0 < n) : 10 ^ ((Nat.toDigits 10 n).length - 1) ≤ n := by
  by_contra hlt
  have hpos : 0 < (Nat.toDigits 10 n).length := Nat.length_toDigits_pos
  by_cases hone : (Nat.toDigits 10 n).length - 1 = 0
  · rw [hone] at hlt
    omega
  · have hle := (Nat.length_toDigits_le_iff (by decide) (by omega)).mpr (Nat.not_le.mp hlt)
    omega

theorem length_mul_pow (h : 0 < n) (k : Nat) :
    (Nat.toDigits 10 (n * 10 ^ k)).length = (Nat.toDigits 10 n).length + k := by
  have hpos : 0 < (Nat.toDigits 10 n).length := Nat.length_toDigits_pos
  apply Nat.le_antisymm
  · rw [Nat.length_toDigits_le_iff (by decide) (by omega), Nat.pow_add]
    exact Nat.mul_lt_mul_of_pos_right (lt_pow_length n) (by positivity)
  · by_contra hlt
    have hlow := Nat.mul_le_mul_right (10 ^ k) (pow_length_le h)
    have hup := lt_pow_length (n * 10 ^ k)
    rw [← Nat.pow_add] at hlow
    have hexponent := (Nat.pow_lt_pow_iff_right (by decide)).mp (Nat.lt_of_le_of_lt hlow hup)
    omega

end Widths

variable {digits : Nat} {exponent : Int}

-- One quotient for both signs of the exponent.
theorem ofDecimal_eq (digits : Nat) (exponent : Int) :
    ofDecimal digits exponent =
      if digits = 0 ∨ (Nat.toDigits 10 digits).length + exponent < -45 then 0
      else if 40 < (Nat.toDigits 10 digits).length + exponent then infinity
      else nearest ((digits * 10 ^ exponent.toNat) <<< 149) (10 ^ (-exponent).toNat) := by
  rw [ofDecimal]
  split
  · rfl
  · split
    · rfl
    · split
      · rename_i hsign
        have hzero : (-exponent).toNat = 0 := by omega
        rw [hzero]
        rfl
      · rename_i hsign
        have hzero : exponent.toNat = 0 := by omega
        rw [hzero, Nat.pow_zero, Nat.mul_one]
        rfl

theorem ofDecimal_le_infinity (digits : Nat) (exponent : Int) :
    ofDecimal digits exponent ≤ infinity := by
  rw [ofDecimal_eq]
  split
  · exact Nat.zero_le _
  · split
    · exact Nat.le_refl _
    · exact Nat.min_le_left _ _

-- Zeros at the end make no difference.
theorem ofDecimal_mul_pow (h : 0 < digits) (exponent : Int) (k : Nat) :
    ofDecimal (digits * 10 ^ k) (exponent - k) = ofDecimal digits exponent := by
  have hwidth := length_mul_pow h k
  have hplace : ((Nat.toDigits 10 (digits * 10 ^ k)).length : Int) + (exponent - k) =
      (Nat.toDigits 10 digits).length + exponent := by
    rw [hwidth]
    omega
  have hne : digits * 10 ^ k ≠ 0 := Nat.mul_ne_zero (by omega) (by positivity)
  have hnearest : nearest ((digits * 10 ^ k * 10 ^ (exponent - k).toNat) <<< 149)
      (10 ^ (-(exponent - k)).toNat) =
        nearest ((digits * 10 ^ exponent.toNat) <<< 149) (10 ^ (-exponent).toNat) := by
    refine nearest_congr (by positivity) (by positivity) ?_
    have hpowers : k + (exponent - k).toNat + (-exponent).toNat =
        exponent.toNat + (-(exponent - k)).toNat := by omega
    have hscaled := congrArg (10 ^ ·) hpowers
    simp only [Nat.pow_add] at hscaled
    simp only [Nat.shiftLeft_eq]
    calc digits * 10 ^ k * 10 ^ (exponent - k).toNat * 2 ^ 149 * 10 ^ (-exponent).toNat
        = digits * 2 ^ 149 * (10 ^ k * 10 ^ (exponent - k).toNat * 10 ^ (-exponent).toNat) := by
          ring
      _ = digits * 2 ^ 149 * (10 ^ exponent.toNat * 10 ^ (-(exponent - k)).toNat) := by
          rw [hscaled]
      _ = digits * 10 ^ exponent.toNat * 2 ^ 149 * 10 ^ (-(exponent - k)).toNat := by ring
  simp only [ofDecimal_eq, hplace, hnearest, hne, Nat.ne_of_gt h]

section Shortest

variable {bits : Nat}

theorem units_pos (h : bits ≠ 0) : 0 < units bits := by
  simp only [units]
  split
  · omega
  · rw [Nat.shiftLeft_eq]
    refine Nat.mul_pos ?_ (Nat.two_pow_pos _)
    exact Nat.add_pos_right _ (by decide)

theorem units_lt (h : bits < infinity) : units bits < 2 ^ 24 * 2 ^ 253 := by
  simp only [units]
  split
  · rename_i hsmall
    exact hsmall.trans (by decide)
  · have hfield : bits / hidden - 1 ≤ 253 := by
      have hlt : bits / hidden < 255 := (Nat.div_lt_iff_lt_mul (by decide)).mpr h
      omega
    have hsignificand : bits % hidden + hidden < 2 ^ 24 := by
      have hlt : bits % hidden < hidden := Nat.mod_lt _ (by decide)
      rw [hidden_eq] at hlt ⊢
      omega
    rw [Nat.shiftLeft_eq]
    calc (bits % hidden + hidden) * 2 ^ (bits / hidden - 1)
        < 2 ^ 24 * 2 ^ (bits / hidden - 1) :=
          Nat.mul_lt_mul_of_pos_right hsignificand (Nat.two_pow_pos _)
      _ ≤ 2 ^ 24 * 2 ^ 253 := Nat.mul_le_mul_left _ (Nat.pow_le_pow_right (by decide) hfield)

-- The exact value of a magnitude reads back as it.
theorem ofDecimal_exactDigits (h : bits ≠ 0) (hfinite : bits < infinity) :
    ofDecimal (exactDigits bits) (-149) = bits := by
  have hexact : exactDigits bits = units bits * 5 ^ 149 := rfl
  have hpos := units_pos h
  have hlow : 5 ^ 149 ≤ exactDigits bits := by
    rw [hexact]
    exact Nat.le_mul_of_pos_left _ hpos
  have hup : exactDigits bits < 10 ^ 188 := by
    have hlt := Nat.mul_lt_mul_of_pos_right (units_lt hfinite) (show 0 < 5 ^ 149 by positivity)
    rw [hexact]
    exact hlt.trans (by norm_num)
  have hwide : 104 < (Nat.toDigits 10 (exactDigits bits)).length := by
    have hlt : 10 ^ 104 < 10 ^ (Nat.toDigits 10 (exactDigits bits)).length := by
      calc 10 ^ 104 ≤ 5 ^ 149 := by norm_num
        _ ≤ exactDigits bits := hlow
        _ < 10 ^ (Nat.toDigits 10 (exactDigits bits)).length := lt_pow_length _
    exact (Nat.pow_lt_pow_iff_right (by decide)).mp hlt
  have hnarrow : (Nat.toDigits 10 (exactDigits bits)).length ≤ 188 :=
    (Nat.length_toDigits_le_iff (by decide) (by decide)).mpr hup
  have hne : exactDigits bits ≠ 0 := by
    have hfive : 0 < 5 ^ 149 := by positivity
    omega
  have hzero : (-149 : Int).toNat = 0 := rfl
  have hplaces : (-(-149 : Int)).toNat = 149 := rfl
  rw [ofDecimal_eq, if_neg (by omega), if_neg (by omega), hzero, hplaces]
  calc nearest ((exactDigits bits * 10 ^ 0) <<< 149) (10 ^ 149)
      = nearest (units bits) 1 := by
        refine nearest_congr (by positivity) (by decide) ?_
        rw [hexact, Nat.shiftLeft_eq]
        ring
    _ = bits := nearest_units hfinite

theorem ofDecimal_onGrid {grid : Nat} {decimal : Decimal} (h : onGrid? bits grid = some decimal) :
    ofDecimal decimal.digits decimal.exponent = bits := by
  simp only [onGrid?] at h
  split at h
  · rename_i hbelow
    obtain rfl := Option.some.inj h
    exact hbelow.1
  · split at h
    · rename_i habove
      obtain rfl := Option.some.inj h
      exact habove
    · contradiction

theorem ofDecimal_searchGrids (h : bits ≠ 0) (hfinite : bits < infinity) (grid : Nat) :
    ofDecimal (searchGrids bits grid).digits (searchGrids bits grid).exponent = bits := by
  induction grid with
  | zero => exact ofDecimal_exactDigits h hfinite
  | succ grid ih =>
      rw [searchGrids]
      cases hfound : onGrid? bits (grid + 1) with
      | none => exact ih
      | some decimal => exact ofDecimal_onGrid hfound

theorem ofDecimal_shortest (h : bits ≠ 0) (hfinite : bits < infinity) :
    ofDecimal (shortest bits).digits (shortest bits).exponent = bits :=
  ofDecimal_searchGrids h hfinite _

theorem shortest_pos (h : bits ≠ 0) (hfinite : bits < infinity) : 0 < (shortest bits).digits := by
  have hread := ofDecimal_shortest h hfinite
  by_contra hzero
  rw [ofDecimal_eq, if_pos (by omega)] at hread
  omega

end Shortest

section Decades

-- A decimal below a power of ten is read as at most that power, and one that is not below it as
-- at least that power.

theorem ofDecimal_le_tenthPower {k : Nat}
    (hplace : (Nat.toDigits 10 digits).length + exponent ≤ -(k : Int)) :
    ofDecimal digits exponent ≤ nearest (1 <<< 149) (10 ^ k) := by
  have hlength : 0 < (Nat.toDigits 10 digits).length := Nat.length_toDigits_pos
  rw [ofDecimal_eq]
  split
  · exact Nat.zero_le _
  · rw [if_neg (by omega)]
    refine nearest_mono (by positivity) (by positivity) ?_
    have hzero : exponent.toNat = 0 := by omega
    have hpowers : 10 ^ (Nat.toDigits 10 digits).length * 10 ^ k ≤ 10 ^ (-exponent).toNat := by
      rw [← Nat.pow_add]
      exact Nat.pow_le_pow_right (by decide) (by omega)
    have hdigits := Nat.mul_le_mul_right (10 ^ k) (lt_pow_length digits).le
    rw [hzero, Nat.pow_zero, Nat.mul_one, Nat.shiftLeft_eq, Nat.shiftLeft_eq, Nat.one_mul]
    calc digits * 2 ^ 149 * 10 ^ k = digits * 10 ^ k * 2 ^ 149 := by ring
      _ ≤ 10 ^ (-exponent).toNat * 2 ^ 149 := Nat.mul_le_mul_right _ (hdigits.trans hpowers)
      _ = 2 ^ 149 * 10 ^ (-exponent).toNat := by ring

theorem power_le_ofDecimal {k : Nat} (hpos : 0 < digits)
    (hplace : (k : Int) < (Nat.toDigits 10 digits).length + exponent) :
    nearest (10 ^ k <<< 149) 1 ≤ ofDecimal digits exponent := by
  rw [ofDecimal_eq, if_neg (by omega)]
  split
  · exact Nat.min_le_left _ _
  · refine nearest_mono (by decide) (by positivity) ?_
    have hlow := pow_length_le hpos
    have hpowers : 10 ^ k * 10 ^ (-exponent).toNat ≤
        10 ^ ((Nat.toDigits 10 digits).length - 1) * 10 ^ exponent.toNat := by
      rw [← Nat.pow_add, ← Nat.pow_add]
      exact Nat.pow_le_pow_right (by decide) (by omega)
    have hdigits := Nat.mul_le_mul_right (10 ^ exponent.toNat) hlow
    rw [Nat.mul_one, Nat.shiftLeft_eq, Nat.shiftLeft_eq]
    calc 10 ^ k * 2 ^ 149 * 10 ^ (-exponent).toNat
        = 10 ^ k * 10 ^ (-exponent).toNat * 2 ^ 149 := by ring
      _ ≤ digits * 10 ^ exponent.toNat * 2 ^ 149 :=
          Nat.mul_le_mul_right _ (hpowers.trans hdigits)

end Decades

end Capuchin.Binary32
