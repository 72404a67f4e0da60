import Calculator.Proofs.Decimal.Reading
import Calculator.Proofs.Decimal.Significant
import Calculator.Proofs.Grammar.Steps

/-!
# Literals as they are displayed

A literal is rounded twice: to 53 binary digits when it is read, and to fifteen decimal digits when
it is shown. The first rounding is too fine for the second one to show, so that a literal of fifteen
significant digits or fewer is displayed as the number that was written.

* `displayNumber_of_value`: a number of fifteen digits is displayed as it is.
* `denotes_displayNumber`: so is every short decimal fraction, and zero.
* `Expr.render_literal`: a short literal is displayed as it was written, and can be read back.
-/

namespace Calculator

variable {d : Decimal} {w p m k : ℕ}

/-! ## What is shown -/

/-- A number of fifteen digits that needs no exponent is shown with its places behind the point. -/
theorem standardDisplay_ofSignificant (hp : p ≤ 18) :
    standardDisplay.ofSignificant ⟨w, -p + 14⟩ = Display.positional w p := by
  have hplaces : (((15 : ℕ) : ℤ) - 1 - (-p + 14)).toNat = p := by omega
  have hrange : standardDisplay.leastExponent ≤ -(p : ℤ) + 14 ∧
      -(p : ℤ) + 14 < standardDisplay.digits := by
    simp only [standardDisplay]
    omega
  rw [Display.ofSignificant, if_pos hrange]
  exact congrArg (Display.positional w) hplaces

/-- The error of reading is too small to be shown. -/
theorem displayNumber_of_value (hlow : (2 : ℚ) ^ (-1000 : ℤ) ≤ d.value)
    (hhigh : d.value < 2 ^ (1000 : ℤ)) (hlower : 10 ^ 14 ≤ w) (hupper : w < 10 ^ 15) (hp : p ≤ 18)
    (hvalue : d.value = w * 10 ^ (-p : ℤ)) :
    (displayNumber d.toFloat).toList = Display.positional w p := by
  obtain ⟨num, den, hmagnitude, hsign, hnum, hclose⟩ := d.exists_magnitude hlow hhigh
  rw [hvalue] at hclose
  have hratio : Significant.ofRatio standardDisplay.digits num den = ⟨w, -p + 14⟩ :=
    Significant.ofRatio_of_close (den_pos_of_magnitude hmagnitude) hlower hupper hclose
  rw [displayNumber, Display.ofFloat, String.toList_ofList, hsign, hmagnitude,
    Display.ofMagnitude, if_neg hnum.ne', if_neg Bool.false_ne_true, List.nil_append, hratio,
    standardDisplay_ofSignificant hp]

theorem displayNumber_of_zero (h : d.value = 0) : displayNumber d.toFloat = "0" := by
  rw [Decimal.toFloat_of_zero h]
  decide +kernel

/-- The numbers of the range are far from the ends of what is rounded to 53 digits. -/
theorem zpow_le_of_le {v : ℚ} (h : 1 / 10000 ≤ v) : (2 : ℚ) ^ (-1000 : ℤ) ≤ v := by
  calc (2 : ℚ) ^ (-1000 : ℤ) ≤ 2 ^ (-14 : ℤ) := zpow_le_zpow_right₀ (by norm_num) (by norm_num)
    _ ≤ v := by norm_num at h ⊢; linarith

theorem div_pow_lt_zpow (hm : m < 10 ^ 15) (k : ℕ) : (m : ℚ) / 10 ^ k < 2 ^ (1000 : ℤ) := by
  calc (m : ℚ) / 10 ^ k ≤ m := div_le_self (by positivity) (one_le_pow₀ (by norm_num))
    _ < 10 ^ 15 := by exact_mod_cast hm
    _ ≤ 2 ^ (50 : ℤ) := by norm_num
    _ ≤ 2 ^ (1000 : ℤ) := zpow_le_zpow_right₀ (by norm_num) (by norm_num)

/-- A short decimal fraction is shown as it is. -/
theorem denotes_displayNumber (hm : m < 10 ^ 15) (hvalue : d.value = m / 10 ^ k)
    (hrange : d.value = 0 ∨ 1 / 10000 ≤ d.value) :
    Denotes (displayNumber d.toFloat).toList d.value := by
  rcases hrange with hzero | hrange
  · rw [displayNumber_of_zero hzero, hzero]
    have hdigits := Denotes.whole (s := ['0']) (by decide)
    rwa [show Nat.ofDigitChars 10 ['0'] 0 = 0 by decide, Nat.cast_zero] at hdigits
  · obtain ⟨w, p, hlower, hupper, hp, hw⟩ := exists_eq_mul_zpow hm (hvalue ▸ hrange)
    have hshown := displayNumber_of_value (zpow_le_of_le hrange) (hvalue ▸ div_pow_lt_zpow hm k)
      hlower hupper hp (hvalue.trans hw)
    rw [hshown, hvalue, hw, zpow_neg, zpow_natCast, ← div_eq_mul_inv]
    exact denotes_positional w p

namespace Expr

/-- A literal with fifteen significant digits at most, all of which are below the fifteenth power of
ten, is displayed as it was written if it is zero or not below 0.0001. Zeros at its ends may be
missing. What is displayed is read back as the same constant. -/
theorem render_literal {t : Token} (hkind : t.kind = .number)
    (hvalue : Denotes t.text.toList (m / 10 ^ k)) (hm : m < 10 ^ 15)
    (hrange : (m : ℚ) / 10 ^ k = 0 ∨ 1 / 10000 ≤ (m : ℚ) / 10 ^ k) (levels : ℕ)
    (rest : List Token) :
    ∃ x, Reading.operand levels (t :: rest) = .ok (.number x, rest) ∧
      Denotes (render (.number x)).toList (m / 10 ^ k) ∧ readNumeral (render (.number x)) = x := by
  have hread := hvalue.value_ofNumeral
  rw [← hread] at hrange ⊢
  have hshown := denotes_displayNumber hm hread hrange
  have hback := Decimal.toFloat_congr hshown.value_ofNumeral.symm (hrange.imp_right zpow_le_of_le)
  rw [← readNumeral_of_isNumeral hvalue.isNumeral] at hshown hback
  refine ⟨readNumeral t.text, Reading.operand_number hkind, hshown, ?_⟩
  exact (readNumeral_of_isNumeral hshown.isNumeral).trans hback.symm

/-- Fifteen nines just below a power of ten, with more zeros around them than are shown. -/
theorem render_literal_nines :
    ∃ x, Reading.operand 0 [⟨.number, "00.0009999999999999990"⟩] = .ok (.number x, []) ∧
      Denotes (render (.number x)).toList ((999999999999999 : ℕ) / 10 ^ 18) ∧
      readNumeral (render (.number x)) = x := by
  have hwhole : Nat.ofDigitChars 10 ['0', '0'] 0 = 0 := by decide
  have hfraction : Nat.ofDigitChars 10 "0009999999999999990".toList 0 = 9999999999999990 := by
    decide +kernel
  have hlength : "0009999999999999990".toList.length = 19 := by decide
  have hvalue : Denotes "00.0009999999999999990".toList ((999999999999999 : ℕ) / 10 ^ 18) := by
    have hdigits := Denotes.decimal (s := ['0', '0']) (t := "0009999999999999990".toList)
      (by decide) (by decide)
    rw [hwhole, fractionValue, hfraction, hlength] at hdigits
    norm_num at hdigits ⊢
    exact hdigits
  exact render_literal rfl hvalue (by decide) (.inr (by norm_num)) 0 []

end Expr

end Calculator
