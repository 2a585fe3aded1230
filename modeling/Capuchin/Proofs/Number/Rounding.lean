import Capuchin.Number.Binary32
import Mathlib

-- Rounding depends on the quotient alone, keeps the order, and leaves floats as they are.
namespace Capuchin.Binary32

theorem hidden_eq : hidden = 2 ^ 23 := by decide

section Quotients

variable {n d : Nat}

theorem roundQuotient_mul (n d : Nat) {k : Nat} (hk : 0 < k) :
    roundQuotient (n * k) (d * k) = roundQuotient n d := by
  have hbelow : n * k / (d * k) = n / d := Nat.mul_div_mul_right n d hk
  have hrest : n * k % (d * k) = n % d * k := Nat.mul_mod_mul_right k n d
  have hless : d * k < 2 * (n % d * k) ↔ d < 2 * (n % d) := by
    rw [← Nat.mul_assoc]
    exact Nat.mul_lt_mul_right hk
  have hsame : 2 * (n % d * k) = d * k ↔ 2 * (n % d) = d := by
    rw [← Nat.mul_assoc]
    exact Nat.mul_left_inj (by omega)
  simp only [roundQuotient, hbelow, hrest, hless, hsame]

theorem roundQuotient_one (n : Nat) : roundQuotient n 1 = n := by
  have hrest : n % 1 = 0 := Nat.mod_one n
  simp [roundQuotient, hrest]

theorem le_roundQuotient (n d : Nat) : n / d ≤ roundQuotient n d := by
  simp only [roundQuotient]
  split <;> omega

theorem roundQuotient_le (n d : Nat) : roundQuotient n d ≤ n / d + 1 := by
  simp only [roundQuotient]
  split <;> omega

-- Of two quotients with the same whole part, the one with the larger rest is rounded up if the
-- other one is.
theorem roundQuotient_mono {n' d' : Nat} (hd : 0 < d) (hd' : 0 < d') (h : n * d' ≤ n' * d) :
    roundQuotient n d ≤ roundQuotient n' d' := by
  have hbelow : n / d ≤ n' / d' := by
    rw [Nat.le_div_iff_mul_le hd']
    have hle : n / d * d ≤ n := Nat.div_mul_le_self n d
    have hscaled : n / d * d' * d ≤ n' * d := by
      calc n / d * d' * d = n / d * d * d' := by ring
        _ ≤ n * d' := Nat.mul_le_mul_right d' hle
        _ ≤ n' * d := h
    exact Nat.le_of_mul_le_mul_right hscaled hd
  by_cases hlt : n / d < n' / d'
  · have hup := roundQuotient_le n d
    have hlow := le_roundQuotient n' d'
    omega
  · have heq : n / d = n' / d' := by omega
    have hrest : n % d * d' ≤ n' % d' * d := by
      have hn := Nat.div_add_mod n d
      have hn' := Nat.div_add_mod n' d'
      rw [← hn, ← hn', heq] at h
      nlinarith only [h]
    have hup : d < 2 * (n % d) → d' < 2 * (n' % d') := by
      intro hless
      refine Nat.lt_of_mul_lt_mul_right (a := d) ?_
      nlinarith only [hless, hd', hrest]
    have hhalf : d ≤ 2 * (n % d) → d' ≤ 2 * (n' % d') := by
      intro hle
      refine Nat.le_of_mul_le_mul_right ?_ hd
      nlinarith only [hle, hrest]
    simp only [roundQuotient]
    split
    · rename_i hcond
      rw [if_pos]
      · omega
      · obtain hless | ⟨hsame, hodd⟩ := hcond
        · exact .inl (hup hless)
        · have hle := hhalf (by omega)
          rw [heq] at hodd
          omega
    · split <;> omega

end Quotients

section Nearest

variable {n d : Nat}

-- The significand of what is nearest, with a carry at most 2^24. Above the least exponent it has
-- its leading bit.
theorem significand_le (n d : Nat) :
    roundQuotient n (d <<< ((n / d).log2 - 23)) ≤ 2 * hidden := by
  have hdiv : n / (d <<< ((n / d).log2 - 23)) = n / d / 2 ^ ((n / d).log2 - 23) := by
    rw [Nat.shiftLeft_eq, Nat.div_div_eq_div_mul]
  have hlt : n / d < 2 ^ ((n / d).log2 + 1) := Nat.lt_log2_self
  have hpow : 2 ^ ((n / d).log2 + 1) ≤ 2 * hidden * 2 ^ ((n / d).log2 - 23) := by
    rw [hidden_eq, ← Nat.pow_succ', ← Nat.pow_add]
    exact Nat.pow_le_pow_right (by decide) (by omega)
  have hquotient : n / d / 2 ^ ((n / d).log2 - 23) < 2 * hidden :=
    (Nat.div_lt_iff_lt_mul (Nat.two_pow_pos _)).mpr (by omega)
  have hup := roundQuotient_le n (d <<< ((n / d).log2 - 23))
  omega

theorem hidden_le_significand (n d : Nat) (h : 0 < (n / d).log2 - 23) :
    hidden ≤ roundQuotient n (d <<< ((n / d).log2 - 23)) := by
  have hdiv : n / (d <<< ((n / d).log2 - 23)) = n / d / 2 ^ ((n / d).log2 - 23) := by
    rw [Nat.shiftLeft_eq, Nat.div_div_eq_div_mul]
  have hne : n / d ≠ 0 := by
    intro hzero
    simp [hzero] at h
  have hle : 2 ^ (n / d).log2 ≤ n / d := Nat.log2_self_le hne
  have hpow : hidden * 2 ^ ((n / d).log2 - 23) = 2 ^ (n / d).log2 := by
    rw [hidden_eq, ← Nat.pow_add]
    congr 1
    omega
  have hquotient : hidden ≤ n / d / 2 ^ ((n / d).log2 - 23) :=
    (Nat.le_div_iff_mul_le (Nat.two_pow_pos _)).mpr (by omega)
  have hlow := le_roundQuotient n (d <<< ((n / d).log2 - 23))
  omega

theorem nearest_mono {n' d' : Nat} (hd : 0 < d) (hd' : 0 < d') (h : n * d' ≤ n' * d) :
    nearest n d ≤ nearest n' d' := by
  have hquotient : n / d ≤ n' / d' := by
    rw [Nat.le_div_iff_mul_le hd']
    refine Nat.le_of_mul_le_mul_right ?_ hd
    calc n / d * d' * d = n / d * d * d' := by ring
      _ ≤ n * d' := Nat.mul_le_mul_right d' (Nat.div_mul_le_self n d)
      _ ≤ n' * d := h
  have hshift : (n / d).log2 ≤ (n' / d').log2 := by
    rw [Nat.log2_eq_log_two, Nat.log2_eq_log_two]
    exact Nat.log_mono_right hquotient
  have hup := significand_le n d
  have hlow := hidden_le_significand n' d'
  have hsum : ((n / d).log2 - 23) * hidden + roundQuotient n (d <<< ((n / d).log2 - 23)) ≤
      ((n' / d').log2 - 23) * hidden + roundQuotient n' (d' <<< ((n' / d').log2 - 23)) := by
    by_cases heq : (n / d).log2 - 23 = (n' / d').log2 - 23
    · rw [heq]
      refine Nat.add_le_add_left (roundQuotient_mono ?_ ?_ ?_) _
      · rw [Nat.shiftLeft_eq]
        exact Nat.mul_pos hd (Nat.two_pow_pos _)
      · rw [Nat.shiftLeft_eq]
        exact Nat.mul_pos hd' (Nat.two_pow_pos _)
      · rw [Nat.shiftLeft_eq, Nat.shiftLeft_eq, ← Nat.mul_assoc, ← Nat.mul_assoc]
        exact Nat.mul_le_mul_right _ h
    · have hlt : (n / d).log2 - 23 + 1 ≤ (n' / d').log2 - 23 := by omega
      have hscaled := Nat.mul_le_mul_right hidden hlt
      have hleading := hlow (by omega)
      rw [Nat.succ_mul] at hscaled
      omega
  exact min_le_min_left infinity hsum

theorem nearest_congr {n' d' : Nat} (hd : 0 < d) (hd' : 0 < d') (h : n * d' = n' * d) :
    nearest n d = nearest n' d' :=
  Nat.le_antisymm (nearest_mono hd hd' h.le) (nearest_mono hd' hd h.ge)

-- Every finite magnitude is the one nearest to its value.
theorem nearest_units {bits : Nat} (h : bits < infinity) : nearest (units bits) 1 = bits := by
  have hfinite : min infinity bits = bits := by omega
  simp only [units]
  split
  · rename_i hsmall
    have hlog : bits.log2 - 23 = 0 := by
      by_cases hzero : bits = 0
      · simp [hzero]
      · have hlt : bits.log2 < 23 := (Nat.log2_lt hzero).mpr (hidden_eq ▸ hsmall)
        omega
    simp only [nearest, Nat.div_one, hlog, Nat.zero_mul, Nat.zero_add]
    rw [Nat.shiftLeft_zero, roundQuotient_one, hfinite]
  · rename_i hlarge
    have hpos : 0 < hidden := by decide
    have hmod : bits % hidden < hidden := Nat.mod_lt _ hpos
    have hsplit := Nat.div_add_mod' bits hidden
    have hfield : 1 ≤ bits / hidden := (Nat.le_div_iff_mul_le hpos).mpr (by omega)
    generalize bits / hidden = field at *
    generalize bits % hidden = fraction at *
    obtain ⟨shift, rfl⟩ : ∃ shift, field = shift + 1 := ⟨field - 1, by omega⟩
    have hlog : ((fraction + hidden) * 2 ^ shift).log2 = 23 + shift := by
      have hne : (fraction + hidden) * 2 ^ shift ≠ 0 :=
        Nat.mul_ne_zero (by omega) (Nat.two_pow_pos _).ne'
      rw [Nat.log2_eq_iff hne, Nat.pow_add, Nat.add_right_comm, Nat.pow_add]
      rw [hidden_eq] at hmod ⊢
      exact ⟨Nat.mul_le_mul_right _ (by omega), Nat.mul_lt_mul_of_pos_right (by omega)
        (Nat.two_pow_pos _)⟩
    simp only [nearest, Nat.div_one, Nat.add_sub_cancel, Nat.shiftLeft_eq, hlog,
      Nat.add_sub_cancel_left]
    rw [roundQuotient_mul _ _ (Nat.two_pow_pos _), roundQuotient_one]
    rw [Nat.succ_mul] at hsplit
    omega

end Nearest

end Capuchin.Binary32
