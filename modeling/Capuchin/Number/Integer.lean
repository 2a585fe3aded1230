namespace Capuchin

namespace Integer

-- The value of a text that is one or more ASCII digits.
def digitsValue? (digits : List Char) : Option Nat :=
  if digits ≠ [] ∧ digits.all Char.isDigit then some (Nat.ofDigitChars 10 digits 0) else none

-- The value of a text that is digits behind at most one sign.
def signedValue? : List Char → Option Int
  | '-' :: digits => (digitsValue? digits).map fun n => -(n : Int)
  | '+' :: digits => (digitsValue? digits).map fun n => (n : Int)
  | digits => (digitsValue? digits).map fun n => (n : Int)

-- The 32-bit integer with a given value, if the value is in range.
def ofInt? (value : Int) : Option Int32 :=
  if -2147483648 ≤ value ∧ value ≤ 2147483647 then some (Int32.ofInt value) else none

-- The integer a text denotes in decimal.
def read? (text : String) : Option Int32 :=
  (signedValue? text.toList).bind ofInt?

def text (value : Int32) : String := toString value.toInt

-- A length as an integer. Lengths beyond the largest integer become the largest integer.
def ofLength (length : Nat) : Int32 :=
  if length ≤ 2147483647 then Int32.ofNat length else Int32.maxValue

-- An integer as an index into `length` elements.
def index? (value : Int32) (length : Nat) : Option Nat :=
  if 0 ≤ value.toInt ∧ value.toInt < length then some value.toInt.toNat else none

end Integer

end Capuchin
