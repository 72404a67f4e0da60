import Calculator.Binary64
import Calculator.Decimal.Rounding

/-!
# Numbers as they are displayed

A number is rounded to a fixed count of significant digits. It is written with a point and no
exponent if the power of ten of its first digit is neither too small nor as large as the count of
digits; otherwise the first digit stands alone before the point and an exponent follows. Zeros at
the end of a fraction are left out, and the point with them if nothing remains behind it. A minus
sign stands before all negative numbers, and before a NaN whose sign bit is set.

The decisions of the format are gathered in one value of `Display`.

* `displayNumber_of_isNaN`, `displayNumber_of_not_isNaN`: the sign of a NaN shows, and no other
  number is shown in two ways.
-/

namespace Calculator

/-- How numbers are written. -/
structure Display where
  /-- The count of significant digits. -/
  digits : Nat
  /-- The least power of ten of the first digit that is written without an exponent. -/
  leastExponent : Int
  /-- The letter before an exponent. -/
  mark : Char
  /-- The least count of digits of an exponent. -/
  exponentDigits : Nat
  /-- The word for an infinite number, before which a sign may stand. -/
  infinity : String
  /-- The word for NaN, before which a sign may stand. -/
  undefined : String

namespace Display

/-- The digits of `n`, with zeros in front up to the given width. -/
def padded (width n : Nat) : List Char := (Nat.toDigits 10 n).leftpad width '0'

/-- A fraction without the zeros at its end. -/
def dropTrailingZeros (digits : List Char) : List Char :=
  (digits.reverse.dropWhile (· = '0')).reverse

/-- The digits before a point and those behind it; the point falls away with the last of them. -/
def withPoint (whole fraction : List Char) : List Char :=
  match dropTrailingZeros fraction with
  | [] => whole
  | digits => whole ++ '.' :: digits

/-- A number of the given count of places behind the point, without an exponent. -/
def positional (coefficient places : Nat) : List Char :=
  withPoint (Nat.toDigits 10 (coefficient / Nat.pow 10 places))
    (padded places (coefficient % Nat.pow 10 places))

/-- An exponent with its sign. -/
def signedExponent (f : Display) (x : Int) : List Char :=
  f.mark :: (if x < 0 then '-' else '+') :: padded f.exponentDigits x.natAbs

/-- A positive number, with or without an exponent. -/
def ofSignificant (f : Display) (n : Significant) : List Char :=
  if f.leastExponent ≤ n.exponent ∧ n.exponent < f.digits then
    positional n.coefficient (f.digits - 1 - n.exponent).toNat
  else
    positional n.coefficient (f.digits - 1) ++ f.signedExponent n.exponent

/-- The size of a number. -/
def ofMagnitude (f : Display) : Magnitude → List Char
  | .undefined => f.undefined.toList
  | .infinite => f.infinity.toList
  | .ratio num den =>
    if num = 0 then ['0'] else f.ofSignificant (Significant.ofRatio f.digits num den)

/-- A number, with a minus sign if it is negative. A NaN is shown with the sign that is told. -/
def ofFloat (f : Display) (x : Float) (nanSign : Bool := false) : String :=
  String.ofList ((if isNegative x nanSign then ['-'] else []) ++ f.ofMagnitude (magnitude x))

end Display

/-- Fifteen significant digits, an exponent of two digits or more below 0.0001 and from the
fifteenth power of ten on. -/
def standardDisplay : Display where
  digits := 15
  leastExponent := -4
  mark := 'e'
  exponentDigits := 2
  infinity := "inf"
  undefined := "nan"

/-- A number as the calculator shows it, a NaN with the given sign (expr:161-165,
`format_number`). -/
def displayNumber (x : Float) (nanSign : Bool := false) : String :=
  standardDisplay.ofFloat x nanSign

theorem displayNumber_of_isNaN {x : Float} (h : x.isNaN) (nanSign : Bool) :
    displayNumber x nanSign = if nanSign then "-nan" else "nan" := by
  rw [displayNumber, Display.ofFloat, isNegative_of_isNaN h, magnitude_of_isNaN h]
  cases nanSign <;> rfl

theorem displayNumber_of_not_isNaN {x : Float} (h : ¬x.isNaN) (nanSign : Bool) :
    displayNumber x nanSign = displayNumber x := by
  rw [displayNumber, Display.ofFloat, isNegative_of_not_isNaN h]
  rfl

end Calculator
