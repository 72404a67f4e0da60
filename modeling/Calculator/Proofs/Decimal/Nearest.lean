import Calculator.Decimal.Rounding
import Mathlib.Algebra.Order.Field.Rat
import Mathlib.Tactic.Linarith
import Mathlib.Tactic.Positivity
import Mathlib.Tactic.Ring

/-!
# The nearest natural

Rounding to the nearest natural, a tie going to the even one, as a relation between a rational
number and a natural. What rounds in this way, with whatever arithmetic, has only one result.

* `IsNearest.unique`: no two naturals are nearest to one number.
* `isNearest_roundDiv`: the rounded quotient is the natural nearest to the quotient.
-/

namespace Calculator

variable {q : ℚ} {m n num den : ℕ}

/-! ## Quotients of naturals -/

/-- A quotient is its whole part and the fraction that the remainder leaves. -/
theorem natCast_div_eq (num : ℕ) (hden : 0 < den) :
    (num : ℚ) / den = (num / den : ℕ) + (num % den : ℕ) / (den : ℚ) := by
  have hpos : (0 : ℚ) < den := by exact_mod_cast hden
  rw [div_eq_iff hpos.ne', add_mul, div_mul_cancel₀ _ hpos.ne']
  exact_mod_cast (Nat.div_add_mod' num den).symm

theorem mod_div_lt_one (num : ℕ) (hden : 0 < den) : ((num % den : ℕ) : ℚ) / den < 1 := by
  rw [div_lt_one (by exact_mod_cast hden)]
  exact_mod_cast Nat.mod_lt num hden

theorem div_lt_half (hden : 0 < den) (h : compare (2 * num) den = .lt) :
    (num : ℚ) / den < 1 / 2 := by
  have : (2 * num : ℚ) < den := by exact_mod_cast Nat.compare_eq_lt.1 h
  rw [div_lt_iff₀ (by exact_mod_cast hden)]
  linarith

theorem div_eq_half (hden : 0 < den) (h : compare (2 * num) den = .eq) :
    (num : ℚ) / den = 1 / 2 := by
  have : (2 * num : ℚ) = den := by exact_mod_cast Nat.compare_eq_eq.1 h
  rw [div_eq_iff (by exact_mod_cast hden.ne')]
  linarith

theorem half_lt_div (hden : 0 < den) (h : compare (2 * num) den = .gt) :
    1 / 2 < (num : ℚ) / den := by
  have : (den : ℚ) < 2 * num := by exact_mod_cast Nat.compare_eq_gt.1 h
  rw [lt_div_iff₀ (by exact_mod_cast hden)]
  linarith

/-- A power with an integer exponent, as a quotient of powers with natural ones. -/
theorem zpow_eq_pow_div_pow {b : ℚ} (hb : b ≠ 0) (x : ℤ) :
    b ^ x = b ^ x.toNat / b ^ (-x).toNat := by
  rw [← zpow_natCast, ← zpow_natCast, ← zpow_sub₀ hb, Int.toNat_sub_toNat_neg]

/-! ## The relation -/

/-- `n` is a natural nearest to `q`, and the even one of two that are equally near. -/
def IsNearest (q : ℚ) (n : ℕ) : Prop := |q - n| ≤ 1 / 2 ∧ (|q - n| = 1 / 2 → Even n)

theorem IsNearest.of_abs_lt (h : |q - n| < 1 / 2) : IsNearest q n :=
  ⟨h.le, fun heq => absurd heq h.ne⟩

theorem IsNearest.le (hm : IsNearest q m) (hn : IsNearest q n) : n ≤ m := by
  by_contra hlt
  have hle : (m : ℚ) + 1 ≤ n := by exact_mod_cast not_le.1 hlt
  obtain ⟨-, hupper⟩ := abs_le.1 hm.1
  obtain ⟨hlower, -⟩ := abs_le.1 hn.1
  have hq : q = m + 1 / 2 := by linarith
  have hsucc : n = m + 1 := by
    have : (n : ℚ) = m + 1 := by linarith
    exact_mod_cast this
  have hevenM : Even m := hm.2 (by rw [hq]; norm_num)
  have hevenN : Even n := hn.2 (by rw [hq, hsucc]; norm_num [abs_of_neg])
  rw [hsucc, Nat.even_add_one] at hevenN
  exact hevenN hevenM

/-- Only one natural is nearest. -/
theorem IsNearest.unique (hm : IsNearest q m) (hn : IsNearest q n) : m = n :=
  le_antisymm (hn.le hm) (hm.le hn)

theorem IsNearest.le_of_le (h : IsNearest q n) (hm : (m : ℚ) ≤ q) : m ≤ n := by
  by_contra hlt
  have hle : (n : ℚ) + 1 ≤ m := by exact_mod_cast not_le.1 hlt
  have := (abs_le.1 h.1).2
  linarith

theorem IsNearest.le_of_lt (h : IsNearest q n) (hm : q < m) : n ≤ m := by
  by_contra hlt
  have hle : (m : ℚ) + 1 ≤ n := by exact_mod_cast not_le.1 hlt
  have := (abs_le.1 h.1).1
  linarith

/-! ## A natural and a fraction behind it -/

theorem IsNearest.of_lt_half {r : ℚ} (h0 : 0 ≤ r) (h : r < 1 / 2) : IsNearest (n + r) n := by
  apply IsNearest.of_abs_lt
  rwa [add_sub_cancel_left, abs_of_nonneg h0]

theorem IsNearest.of_half : IsNearest (n + 1 / 2) (n + n % 2) := by
  rcases Nat.mod_two_eq_zero_or_one n with h | h <;> rw [h]
  · refine ⟨by norm_num, fun _ => by simpa [Nat.even_iff] using h⟩
  · refine ⟨by norm_num [abs_of_neg], fun _ => ?_⟩
    rw [Nat.even_iff]
    omega

theorem IsNearest.of_half_lt {r : ℚ} (h : 1 / 2 < r) (h1 : r < 1) : IsNearest (n + r) (n + 1) := by
  apply IsNearest.of_abs_lt
  rw [abs_lt]
  push_cast
  constructor <;> linarith

/-- Rounding a quotient finds the nearest natural. -/
theorem isNearest_roundDiv (hden : 0 < den) :
    IsNearest ((num : ℚ) / den) (roundDiv num den) := by
  rw [natCast_div_eq num hden, roundDiv]
  split
  case h_1 h => exact .of_lt_half (by positivity) (div_lt_half hden h)
  case h_2 h =>
    rw [div_eq_half hden h]
    exact .of_half
  case h_3 h => exact .of_half_lt (half_lt_div hden h) (mod_div_lt_one num hden)

end Calculator
