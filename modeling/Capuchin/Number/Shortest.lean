import Capuchin.Number.Binary32

namespace Capuchin.Binary32

-- A decimal number `digits * 10 ^ exponent`.
structure Decimal where
  digits : Nat
  exponent : Int
  deriving DecidableEq, Repr

-- One unit is 5^149 times 10^-149, so every finite magnitude is a whole number of 10^-149.
def exactDigits (bits : Nat) : Nat := units bits * Nat.pow 5 149

-- A multiple of `10 ^ (grid - 149)` that reads back as `bits`: one of the two that enclose the
-- exact value, the nearer one if both do, and of two equally near ones the larger.
def onGrid? (bits grid : Nat) : Option Decimal :=
  let exponent : Int := grid - 149
  let step := Nat.pow 10 grid
  let below := exactDigits bits / step
  let rest := exactDigits bits % step
  let belowReads := ofDecimal below exponent = bits
  let aboveReads := ofDecimal (below + 1) exponent = bits
  if belowReads ∧ (2 * rest < step ∨ ¬ aboveReads) then some ⟨below, exponent⟩
  else if aboveReads then some ⟨below + 1, exponent⟩
  else none

-- The first decimal found on the grids `grid`, `grid - 1`, and so on. On the last one the
-- exact value itself stands.
def searchGrids (bits : Nat) : Nat → Decimal
  | 0 => ⟨exactDigits bits, -149⟩
  | grid + 1 => (onGrid? bits (grid + 1)).getD (searchGrids bits grid)

-- The decimal with the fewest digits that reads back as a finite positive magnitude. The
-- search begins above the largest one, which has 39 digits.
def shortest (bits : Nat) : Decimal := searchGrids bits (149 + 39)

end Capuchin.Binary32
