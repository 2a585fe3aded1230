import Capuchin.Number.Integer
import Capuchin.Number.Shortest

namespace Capuchin

namespace FloatText

-- The parts of an unsigned decimal text: the digits before and behind the point and the
-- exponent.
structure Parts where
  whole : List Char
  fraction : List Char
  exponent : Int
  deriving DecidableEq, Repr

-- The exponent part of a decimal text, which may be absent.
def exponent? : List Char → Option Int
  | [] => some 0
  | mark :: rest => if mark = 'e' ∨ mark = 'E' then Integer.signedValue? rest else none

-- Digits, an optional point with digits, and an optional exponent. On one side of the point
-- there has to be a digit.
def parts? (text : List Char) : Option Parts :=
  let whole := text.takeWhile Char.isDigit
  let (fraction, rest) :=
    match text.dropWhile Char.isDigit with
    | '.' :: rest => (rest.takeWhile Char.isDigit, rest.dropWhile Char.isDigit)
    | rest => ([], rest)
  if whole = [] ∧ fraction = [] then none
  else (exponent? rest).map fun exponent => { whole, fraction, exponent }

def Parts.magnitude (parts : Parts) : Nat :=
  Binary32.ofDecimal (Nat.ofDigitChars 10 (parts.whole ++ parts.fraction) 0)
    (parts.exponent - parts.fraction.length)

-- The magnitude an unsigned text denotes: a decimal number, or a word for infinity or for a
-- number that is none, in any case.
def magnitude? (text : List Char) : Option Nat :=
  let word := String.ofList (text.map Char.toLower)
  if word = "inf" ∨ word = "infinity" then some Binary32.infinity
  else if word = "nan" then some (Binary32.infinity + 0x400000)
  else (parts? text).map Parts.magnitude

-- The bit that makes a float negative.
def signBit : Nat := 0x80000000

def ofMagnitude (negative : Bool) (bits : Nat) : Float32 :=
  Float32.ofBits (UInt32.ofNat (if negative then signBit + bits else bits))

-- The float nearest to the number a text denotes.
def read? (text : String) : Option Float32 :=
  match text.toList with
  | '-' :: rest => (magnitude? rest).map (ofMagnitude true)
  | '+' :: rest => (magnitude? rest).map (ofMagnitude false)
  | rest => (magnitude? rest).map (ofMagnitude false)

-- How floats are written: the decimal exponents from `leastPlain` on and below `firstPowered`
-- are written without a power of ten, with at least one digit behind the point, the others
-- with `powerMark` and without needless digits.
structure Style where
  leastPlain : Int
  firstPowered : Int
  powerMark : String
  infinity : String
  notANumber : String

def style : Style where
  leastPlain := -4
  firstPowered := 16
  powerMark := "e"
  infinity := "inf"
  notANumber := "NaN"

-- The digits with the point `position` places behind their beginning.
def pointed (digits : List Char) (position : Int) : String :=
  if position ≤ 0 then
    "0." ++ String.ofList (List.replicate (-position).toNat '0' ++ digits)
  else if digits.length ≤ position.toNat then
    String.ofList (digits ++ List.replicate (position.toNat - digits.length) '0') ++ ".0"
  else
    String.ofList (digits.take position.toNat) ++ "." ++ String.ofList (digits.drop position.toNat)

def powered (digits : List Char) (exponent : Int) : String :=
  let fraction := digits.drop 1
  String.ofList (digits.take 1) ++
    (if fraction = [] then "" else "." ++ String.ofList fraction) ++
    style.powerMark ++ toString exponent

def decimalText (decimal : Binary32.Decimal) : String :=
  let digits := Nat.toDigits 10 decimal.digits
  let exponent : Int := decimal.exponent + digits.length - 1
  if style.leastPlain ≤ exponent ∧ exponent < style.firstPowered then
    pointed digits (exponent + 1)
  else powered digits exponent

def magnitudeText (bits : Nat) : String :=
  if bits = 0 then "0.0"
  else if bits = Binary32.infinity then style.infinity
  else decimalText (Binary32.shortest bits)

-- The text of a float: the fewest digits that read back as it.
def text (x : Float32) : String :=
  let bits := x.toBits.toNat
  let magnitude := bits % signBit
  if Binary32.infinity < magnitude then style.notANumber
  else (if signBit ≤ bits then "-" else "") ++ magnitudeText magnitude

end FloatText

end Capuchin
