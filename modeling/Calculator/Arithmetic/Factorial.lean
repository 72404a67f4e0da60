import Calculator.Binary64
import Calculator.Fault

/-!
# The factorial

The factorial of a whole binary64 number is the product of the numbers from two up to it, each
multiplication rounded. From 171 on the product is infinite, so no factor past 171 is taken.

* `factors_length_le`: there are at most 170 factors.
-/

namespace Calculator

/-- The least number whose factorial exceeds the largest finite binary64 number. -/
def overflowingFactorial : Nat := 171

/-- The factors of `n!` that matter, in ascending order. -/
def factors (n : Nat) : List Nat := List.range' 2 (min n overflowingFactorial - 1)

theorem factors_length_le (n : Nat) : (factors n).length ≤ 170 := by
  simp only [factors, overflowingFactorial, List.length_range']
  omega

/-- The product of some naturals as binary64 numbers, multiplied from left to right (expr:67-69, the
loop of `factorial`). -/
def product (ns : List Nat) : Float := ns.foldl (fun acc n => acc * Float.ofNat n) 1

/-- The factorial of a whole number; minus one for any number below zero (expr:62-70, `factorial`).
A fraction has none, and NaN counts as a fraction. -/
def factorial (x : Float) : Except Fault Float :=
  if x < 0 then .ok (-1)
  else
    match magnitude x with
    | .undefined => .error .fractionalFactorial
    | .infinite => .ok (product (factors overflowingFactorial))
    | .ratio num den =>
      if num % den = 0 then .ok (product (factors (num / den)))
      else .error .fractionalFactorial

end Calculator
