import Calculator.Proofs.Decimal.Nearest
import Mathlib.Algebra.Order.Field.Power
import Mathlib.Tactic.FieldSimp

/-!
# Rounding to fifteen digits

The power of ten of the first digit is found from two counts of digits and one comparison. A ratio
is then scaled by a power of ten and rounded to the nearest natural. If the ratio is as close to a
number of fifteen digits as a binary64 number is to what it was read from, the result is that
number.

* `zpow_mem_leadingExponent`: the ratio lies between the power of ten and the next one.
* `Significant.ofRatio_of_close`: a number of fifteen digits is found from a ratio close to it.
* `exists_eq_mul_zpow`: a short decimal fraction is a number of fifteen digits.
-/

namespace Calculator

variable {num den n digits : ℕ} {x : ℤ}

/-! ## The power of ten of the first digit -/

theorem lt_pow_digitCount (n : ℕ) : n < 10 ^ digitCount n :=
  (Nat.length_toDigits_le_iff (by decide) Nat.length_toDigits_pos).1 le_rfl

theorem pow_digitCount_le (hn : 0 < n) : 10 ^ (digitCount n - 1) ≤ n := by
  rcases Nat.eq_zero_or_pos (digitCount n - 1) with h | h
  · rw [h]
    exact hn
  · rw [← not_lt, ← Nat.length_toDigits_le_iff (by decide) h]
    have : 0 < (Nat.toDigits 10 n).length := Nat.length_toDigits_pos
    rw [digitCount] at h ⊢
    omega

/-- The counts of digits tell the power of ten up to one. -/
theorem div_mem_zpow_digitCount (hnum : 0 < num) (hden : 0 < den) :
    (10 : ℚ) ^ ((digitCount num : ℤ) - digitCount den - 1) ≤ num / den ∧
      (num : ℚ) / den < 10 ^ ((digitCount num : ℤ) - digitCount den + 1) := by
  have hd : 0 < digitCount den := Nat.length_toDigits_pos
  have hn : 0 < digitCount num := Nat.length_toDigits_pos
  have hn1 : (10 : ℚ) ^ (digitCount num - 1) ≤ num := by exact_mod_cast pow_digitCount_le hnum
  have hn2 : (num : ℚ) < 10 ^ digitCount num := by exact_mod_cast lt_pow_digitCount num
  have hd1 : (10 : ℚ) ^ (digitCount den - 1) ≤ den := by exact_mod_cast pow_digitCount_le hden
  have hd2 : (den : ℚ) < 10 ^ digitCount den := by exact_mod_cast lt_pow_digitCount den
  have hpos : (0 : ℚ) < den := by exact_mod_cast hden
  constructor
  · calc (10 : ℚ) ^ ((digitCount num : ℤ) - digitCount den - 1)
        = 10 ^ (digitCount num - 1) / 10 ^ digitCount den := by
          rw [← zpow_natCast, ← zpow_natCast, ← zpow_sub₀ (by norm_num)]; congr 1; omega
      _ ≤ num / den := by gcongr
  · calc (num : ℚ) / den < 10 ^ digitCount num / 10 ^ (digitCount den - 1) := by gcongr
      _ = 10 ^ ((digitCount num : ℤ) - digitCount den + 1) := by
          rw [← zpow_natCast, ← zpow_natCast, ← zpow_sub₀ (by norm_num)]; congr 1; omega

/-- The ratio lies between the power of ten and the next one. -/
theorem zpow_mem_leadingExponent (hnum : 0 < num) (hden : 0 < den) :
    (10 : ℚ) ^ leadingExponent num den ≤ num / den ∧
      (num : ℚ) / den < 10 ^ (leadingExponent num den + 1) := by
  obtain ⟨hlower, hupper⟩ := div_mem_zpow_digitCount hnum hden
  have hpos : (0 : ℚ) < den := by exact_mod_cast hden
  have hcompare (x : ℤ) : num * Nat.pow 10 (-x).toNat < den * Nat.pow 10 x.toNat ↔
      (num : ℚ) / den < 10 ^ x := by
    rw [zpow_eq_pow_div_pow (by norm_num), div_lt_div_iff₀ hpos (by positivity), mul_comm (_ ^ _)]
    exact_mod_cast Iff.rfl
  rw [leadingExponent]
  simp only [hcompare]
  split
  case isTrue hlt => exact ⟨hlower, by rwa [sub_add_cancel]⟩
  case isFalse hge => exact ⟨not_lt.1 hge, hupper⟩

theorem leadingExponent_eq (hden : 0 < den) (hlower : (10 : ℚ) ^ x ≤ num / den)
    (hupper : (num : ℚ) / den < 10 ^ (x + 1)) : leadingExponent num den = x := by
  have hnum : 0 < num := by
    rw [Nat.pos_iff_ne_zero]
    rintro rfl
    have : (0 : ℚ) < 10 ^ x := by positivity
    simp at hlower
    linarith
  obtain ⟨hlower', hupper'⟩ := zpow_mem_leadingExponent hnum hden
  have h1 := (zpow_lt_zpow_iff_right₀ (by norm_num : (1 : ℚ) < 10)).1 (hlower.trans_lt hupper')
  have h2 := (zpow_lt_zpow_iff_right₀ (by norm_num : (1 : ℚ) < 10)).1 (hlower'.trans_lt hupper)
  omega

theorem leadingExponent_eq_add {t : ℚ} {d : ℤ} {k : ℕ} (hden : 0 < den)
    (ht : (num : ℚ) / den = t * 10 ^ d) (hlower : 10 ^ k ≤ t) (hupper : t < 10 ^ (k + 1)) :
    leadingExponent num den = d + k := by
  apply leadingExponent_eq hden
  · rw [ht, zpow_add₀ (by norm_num), mul_comm, zpow_natCast]
    gcongr
  · rw [ht, add_assoc, zpow_add₀ (by norm_num), mul_comm]
    gcongr
    exact_mod_cast hupper

/-! ## The coefficient -/

/-- The coefficient is the nearest natural once the power of ten is known, unless that has one digit
more. -/
theorem Significant.ofRatio_eq {t : ℚ} {d : ℤ} {k : ℕ} (hden : 0 < den)
    (ht : (num : ℚ) / den = t * 10 ^ d) (hlower : 10 ^ k ≤ t) (hupper : t < 10 ^ (k + 1))
    (hn : IsNearest (t * 10 ^ ((digits : ℤ) - 1 - k)) n) :
    ofRatio digits num den =
      if n = 10 ^ digits then ⟨10 ^ (digits - 1), d + k + 1⟩ else ⟨n, d + k⟩ := by
  obtain ⟨shift, hshift⟩ : ∃ shift, shift = (digits : ℤ) - 1 - (d + k) := ⟨_, rfl⟩
  have hscaled : t * 10 ^ ((digits : ℤ) - 1 - k) =
      (num * 10 ^ shift.toNat : ℕ) / (den * 10 ^ (-shift).toNat : ℕ) := by
    calc t * 10 ^ ((digits : ℤ) - 1 - k) = num / den * 10 ^ shift := by
          rw [ht, mul_assoc, ← zpow_add₀ (by norm_num), hshift]
          congr 2
          omega
      _ = (num * 10 ^ shift.toNat : ℕ) / (den * 10 ^ (-shift).toNat : ℕ) := by
          rw [zpow_eq_pow_div_pow (by norm_num), div_mul_div_comm]
          norm_cast
  rw [hscaled] at hn
  have hcoefficient := (isNearest_roundDiv (by positivity)).unique hn
  simp only [ofRatio, leadingExponent_eq_add hden ht hlower hupper, ← hshift, Nat.pow_eq,
    hcoefficient]

/-- A ratio that is close to a number of fifteen digits is shown as that number. The ratio may lie
below the power of ten of the first digit only if that power is the number, and then nines are
rounded up to it. -/
theorem Significant.ofRatio_of_close {w : ℕ} {d : ℤ} (hden : 0 < den) (hlower : 10 ^ 14 ≤ w)
    (hupper : w < 10 ^ 15) (hclose : |(num : ℚ) / den - w * 10 ^ d| * 2 ^ 53 ≤ w * 10 ^ d) :
    ofRatio 15 num den = ⟨w, d + 14⟩ := by
  have hpow : (0 : ℚ) < 10 ^ d := by positivity
  have hw : (w : ℚ) + 1 ≤ 10 ^ 15 := by exact_mod_cast hupper
  obtain ⟨t, ht⟩ : ∃ t : ℚ, (num : ℚ) / den = t * 10 ^ d := ⟨num / den / 10 ^ d, by field_simp⟩
  have herror : |t - w| ≤ w / 2 ^ 53 := by
    rw [ht, ← sub_mul, abs_mul, abs_of_pos hpow, mul_right_comm] at hclose
    exact (le_div_iff₀ (by norm_num)).2 (le_of_mul_le_mul_right hclose hpow)
  obtain ⟨hbelow, habove⟩ := abs_le.1 herror
  rcases le_or_gt (10 ^ 14) t with hle | hlt
  · -- The ratio has the first digit of the number.
    have hn : IsNearest (t * 10 ^ (((15 : ℕ) : ℤ) - 1 - (14 : ℕ))) w := by
      apply IsNearest.of_abs_lt
      norm_num
      linarith
    rw [ofRatio_eq hden ht hle (by norm_num; linarith) hn, if_neg hupper.ne]
    rfl
  · -- The ratio is below a power of ten, and the number is not.
    obtain rfl : w = 10 ^ 14 := by
      have : (w : ℚ) < 10 ^ 14 + 1 := by linarith
      have : w < 10 ^ 14 + 1 := by exact_mod_cast this
      omega
    push_cast at hbelow herror
    have hn : IsNearest (t * 10 ^ (((15 : ℕ) : ℤ) - 1 - (13 : ℕ))) (10 ^ 15) := by
      apply IsNearest.of_abs_lt
      rw [abs_lt]
      norm_num
      constructor <;> linarith
    rw [ofRatio_eq hden ht (by linarith) hlt hn, if_pos rfl, Nat.cast_ofNat]
    congr 1
    omega

/-- A short decimal fraction, with zeros behind it, has fifteen digits. -/
theorem exists_eq_mul_zpow {m k : ℕ} (hm : m < 10 ^ 15) (hlower : 1 / 10000 ≤ (m : ℚ) / 10 ^ k) :
    ∃ w p : ℕ, 10 ^ 14 ≤ w ∧ w < 10 ^ 15 ∧ p ≤ 18 ∧ (m : ℚ) / 10 ^ k = w * 10 ^ (-p : ℤ) := by
  have hpos : 0 < m := by
    rw [Nat.pos_iff_ne_zero]
    rintro rfl
    norm_num at hlower
  have hcount : digitCount m ≤ 15 := (Nat.length_toDigits_le_iff (by decide) (by decide)).2 hm
  have hcount' : 0 < digitCount m := Nat.length_toDigits_pos
  obtain ⟨z, hz⟩ : ∃ z, digitCount m + z = 15 := ⟨15 - digitCount m, by omega⟩
  have hw : 10 ^ 14 ≤ m * 10 ^ z := by
    calc 10 ^ 14 = 10 ^ (digitCount m - 1) * 10 ^ z := by rw [← pow_add]; congr 1; omega
      _ ≤ m * 10 ^ z := Nat.mul_le_mul_right _ (pow_digitCount_le hpos)
  have hw' : m * 10 ^ z < 10 ^ 15 := by
    calc m * 10 ^ z < 10 ^ digitCount m * 10 ^ z := by gcongr; exact lt_pow_digitCount m
      _ = 10 ^ 15 := by rw [← pow_add, hz]
  have hvalue : (m : ℚ) / 10 ^ k = (m * 10 ^ z : ℕ) * 10 ^ (-(z + k : ℕ) : ℤ) := by
    rw [zpow_neg, zpow_natCast, pow_add]
    push_cast
    field_simp
  refine ⟨m * 10 ^ z, z + k, hw, hw', ?_, hvalue⟩
  have hlt : (10 : ℚ) ^ (-4 : ℤ) < 10 ^ (15 + -(z + k : ℕ) : ℤ) := by
    rw [zpow_add₀ (by norm_num)]
    calc (10 : ℚ) ^ (-4 : ℤ) ≤ (m * 10 ^ z : ℕ) * 10 ^ (-(z + k : ℕ) : ℤ) := by
          rw [← hvalue]; norm_num at hlower ⊢; exact hlower
      _ < 10 ^ (15 : ℤ) * 10 ^ (-(z + k : ℕ) : ℤ) := by gcongr; exact_mod_cast hw'
  rw [zpow_lt_zpow_iff_right₀ (by norm_num)] at hlt
  omega

end Calculator
