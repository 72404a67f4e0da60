import Calculator.Text

/-!
# The value of a numeral

A numeral is written with digits and perhaps a point, and stands for a decimal fraction. No other
text is found by a lexer. A token that was made without one may hold any text, and then its number
is the one that the text begins with: behind blanks and a sign, a decimal fraction with a power of
ten, a hexadecimal one with a power of two, or the word for infinity or NaN. What follows is left
aside, and a text that begins with none of them stands for zero.

The number is the nearest one of binary64, a tie going to the even mantissa.

* `Decimal.ofNumeral`: the decimal fraction that a numeral is.
* `readNumeral`: the number that a text begins with, whatever the text.
-/

namespace Calculator

open Text

namespace Numeral

/-! ## The parts of a numeral -/

/-- The digits that stand before the point. -/
def wholeDigits (p : Char → Bool) (s : List Char) : List Char := s.takeWhile p

/-- The digits that stand behind the point, if there is one. -/
def fractionDigits (p : Char → Bool) (s : List Char) : List Char :=
  match s.dropWhile p with
  | '.' :: r => r.takeWhile p
  | _ => []

/-- What stands behind the digits and the point. -/
def behindDigits (p : Char → Bool) (s : List Char) : List Char :=
  match s.dropWhile p with
  | '.' :: r => r.dropWhile p
  | r => r

/-- There are digits, before the point or behind it. -/
def hasDigits (p : Char → Bool) (s : List Char) : Bool :=
  wholeDigits p s ≠ [] || fractionDigits p s ≠ []

/-- The exponent that a text begins with: its mark, which is a letter of either case, perhaps a
sign, and digits. If the mark or the digits are missing, the exponent is zero. -/
def exponent (mark : Char) : List Char → Int
  | [] => 0
  | c :: s =>
    if c.toLower = mark then
      match s with
      | '-' :: r => -(Nat.ofDigitChars 10 (r.takeWhile isDigit) 0 : Nat)
      | '+' :: r => Nat.ofDigitChars 10 (r.takeWhile isDigit) 0
      | r => Nat.ofDigitChars 10 (r.takeWhile isDigit) 0
    else 0

/-- A hexadecimal digit, its letters of either case. -/
def isHexDigit (c : Char) : Bool := isDigit c || ('a' ≤ c.toLower && c.toLower ≤ 'f')

/-- The value of a hexadecimal digit. -/
def hexDigitValue (c : Char) : Nat :=
  if isDigit c then c.toNat - '0'.toNat else c.toLower.toNat - 'a'.toNat + 10

end Numeral

/-! ## Decimal fractions -/

/-- The decimal fraction `coefficient / 10 ^ places`. -/
structure Decimal where
  coefficient : Nat
  places : Nat
deriving DecidableEq, Repr

namespace Decimal

open Numeral

/-- The decimal fraction that a text begins with, zero if it begins with none. -/
def ofNumeral (s : List Char) : Decimal where
  coefficient := Nat.ofDigitChars 10 (wholeDigits isDigit s ++ fractionDigits isDigit s) 0
  places := (fractionDigits isDigit s).length

/-- The binary64 number nearest to a decimal fraction times a power of ten, infinite beyond their
range. -/
def scaled (d : Decimal) (exponent : Int) : Float :=
  Float.ofModel (Float.Model.ofScientific d.coefficient (exponent - d.places))

/-- The binary64 number nearest to a decimal fraction. -/
def toFloat (d : Decimal) : Float := d.scaled 0

end Decimal

/-! ## Numbers of any form -/

namespace Numeral

/-- The decimal number that a text begins with. -/
def decimal? (s : List Char) : Option Float :=
  if hasDigits isDigit s then
    some ((Decimal.ofNumeral s).scaled (exponent 'e' (behindDigits isDigit s)))
  else none

/-- The number of the hexadecimal digits that a text begins with. Each digit behind the point takes
four off the power of two. -/
def hexadecimal (s : List Char) : Float :=
  let digits := wholeDigits isHexDigit s ++ fractionDigits isHexDigit s
  let mantissa := digits.foldl (fun n c => 16 * n + hexDigitValue c) 0
  let places := (fractionDigits isHexDigit s).length
  Float.ofModel (.pack (.normalize .binary64 mantissa
    (exponent 'p' (behindDigits isHexDigit s) - 4 * places) .positive))

/-- The number that a text without a sign begins with. -/
def unsigned? (s : List Char) : Option Float :=
  let word := (s.take 3).map Char.toLower
  if word = ['i', 'n', 'f'] then some (Float.ofModel (.pack (.infinity .positive)))
  else if word = ['n', 'a', 'n'] then some (Float.ofModel (.pack .notANumber))
  else
    match s with
    | '0' :: x :: r =>
      if x.toLower = 'x' && hasDigits isHexDigit r then some (hexadecimal r) else decimal? s
    | _ => decimal? s

end Numeral

/-- The binary64 number that a text begins with, zero if it begins with none (parser:136,
`strtod`). -/
def readNumeral (text : String) : Float :=
  match dropBlanks (untilNull text.toList) with
  | '-' :: s => (Numeral.unsigned? s).elim 0 (- ·)
  | '+' :: s => (Numeral.unsigned? s).getD 0
  | s => (Numeral.unsigned? s).getD 0

end Calculator
