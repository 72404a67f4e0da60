import Calculator.Fault

/-!
# Operators

The operations on two numbers, with the characters they are written with and their results, which
are rounded to binary64.
-/

namespace Calculator

/-- An operation on two numbers (expr header:18, `BinaryOperator`). -/
inductive Operator where
  | add
  | sub
  | mul
  | div
  | pow
  /-- The scaling by a power of ten. -/
  | sci
deriving DecidableEq, Repr

namespace Operator

/-- The character that an operator is written with (expr:14-24, `symbol`). -/
def symbol : Operator → Char
  | add => '+'
  | sub => '-'
  | mul => '*'
  | div => '/'
  | pow => '^'
  | sci => 'E'

/-- Divisors smaller than this in size count as zero (expr:12, `kDivisionEpsilon`). -/
def leastDivisor : Float := 1e-8

/-- The result of an operation (expr:72-84, `apply_binary`). Only a division can fail. -/
def apply : Operator → Float → Float → Except Fault Float
  | add, x, y => .ok (x + y)
  | sub, x, y => .ok (x - y)
  | mul, x, y => .ok (x * y)
  | div, x, y => if y.abs < leastDivisor then .error .divisionByZero else .ok (x / y)
  | pow, x, y => .ok (Float.pow x y)
  | sci, x, y => .ok (x * Float.pow 10 y)

end Operator

end Calculator
