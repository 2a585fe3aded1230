namespace Capuchin

-- Magnitudes of the binary32 format, given by their bits without the sign bit.
--
-- Every finite magnitude is a whole number of units of 2^-149, the least positive one. In these
-- units a number below 2^24 is exact, and above that the numbers of each further binary
-- exponent are twice as far apart as those of the one before.
namespace Binary32

-- The bits of infinity. Smaller bits are finite magnitudes, in the order of their values.
def infinity : Nat := 0x7F800000

-- The bit of a significand that the format leaves out. Below it stand the 23 bits that are kept.
def hidden : Nat := 0x800000

-- The value of a finite magnitude, in units.
def units (bits : Nat) : Nat :=
  if bits < hidden then bits else (bits % hidden + hidden) <<< (bits / hidden - 1)

-- The whole number nearest to `n / d`. A half goes to the even neighbour.
def roundQuotient (n d : Nat) : Nat :=
  let below := n / d
  let rest := n % d
  if d < 2 * rest ∨ (2 * rest = d ∧ below % 2 = 1) then below + 1 else below

-- The magnitude nearest to `n / d` units. Its significand keeps 24 bits; a significand that is
-- rounded up to 25 bits carries into the exponent, since the bits of the two fields adjoin.
def nearest (n d : Nat) : Nat :=
  let shift := (n / d).log2 - 23
  min infinity (shift * hidden + roundQuotient n (d <<< shift))

-- The magnitude nearest to `digits * 10 ^ exponent`. Far outside the range of the format the
-- answer is known without the power.
def ofDecimal (digits : Nat) (exponent : Int) : Nat :=
  let width : Int := (Nat.toDigits 10 digits).length
  if digits = 0 ∨ width + exponent < -45 then 0
  else if 40 < width + exponent then infinity
  else if 0 ≤ exponent then nearest ((digits * Nat.pow 10 exponent.toNat) <<< 149) 1
  else nearest (digits <<< 149) (Nat.pow 10 (-exponent).toNat)

end Binary32

end Capuchin
