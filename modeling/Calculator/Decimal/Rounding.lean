/-!
# Rounding to significant digits

A positive ratio of naturals is written as a coefficient with a given number of digits and the
power of ten of its first digit. All arithmetic is exact; a tie goes to the even coefficient.

* `roundDiv_of_dvd`: a quotient that is whole is not changed.
* `roundDiv_le`, `div_le_roundDiv`: the result is the quotient cut off, or the next natural.
-/

namespace Calculator

/-- The quotient `num / den`, rounded to the nearest natural; a half goes to the even neighbour. -/
def roundDiv (num den : Nat) : Nat :=
  let quotient := num / den
  match compare (2 * (num % den)) den with
  | .lt => quotient
  | .eq => quotient + quotient % 2
  | .gt => quotient + 1

theorem div_le_roundDiv (num den : Nat) : num / den ≤ roundDiv num den := by
  rw [roundDiv]
  split <;> omega

theorem roundDiv_le (num den : Nat) : roundDiv num den ≤ num / den + 1 := by
  rw [roundDiv]
  split <;> omega

theorem roundDiv_of_dvd {num den : Nat} (hden : 0 < den) (h : den ∣ num) :
    roundDiv num den = num / den := by
  have hr : num % den = 0 := Nat.mod_eq_zero_of_dvd h
  have hlt : compare (2 * 0) den = .lt := Nat.compare_eq_lt.2 (by omega)
  simp only [roundDiv, hr, hlt]

/-- The number of decimal digits of a natural; zero has one. -/
def digitCount (n : Nat) : Nat := (Nat.toDigits 10 n).length

/-- The power of ten of the first digit of a positive ratio: the `x` for which the ratio lies
between `10 ^ x`, included, and `10 ^ (x + 1)`, excluded. -/
def leadingExponent (num den : Nat) : Int :=
  let x : Int := (digitCount num : Int) - digitCount den
  if num * Nat.pow 10 (-x).toNat < den * Nat.pow 10 x.toNat then x - 1 else x

/-- A decimal number with a fixed count of digits: the first digit of `coefficient` stands for
the power `exponent` of ten. -/
structure Significant where
  coefficient : Nat
  exponent : Int
deriving DecidableEq, Repr

/-- A positive ratio, rounded to `digits` significant digits. Nines that round up to one digit
more are written as the next power of ten. -/
def Significant.ofRatio (digits num den : Nat) : Significant :=
  let x := leadingExponent num den
  let shift : Int := digits - 1 - x
  let n := roundDiv (num * Nat.pow 10 shift.toNat) (den * Nat.pow 10 (-shift).toNat)
  if n = Nat.pow 10 digits then ⟨Nat.pow 10 (digits - 1), x + 1⟩ else ⟨n, x⟩

end Calculator
