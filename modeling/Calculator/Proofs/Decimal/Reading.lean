import Calculator.Proofs.Binary64.Order
import Calculator.Proofs.Binary64.Quotient
import Calculator.Proofs.Decimal.Positional

/-!
# Decimal fractions as they are read

A decimal fraction that is not too small is read as its value rounded to 53 binary digits. So it
does not matter how a number is written, and what is read is close to it.

* `Decimal.toFloat_congr`: two ways to write a number are read alike.
* `Decimal.exists_magnitude`: how close the size of what is read is to the value.
-/

namespace Calculator

open Float.Model Float.Model.UnpackedFloat

variable {d d' : Decimal} {x : Float} {v : ℚ} {m : ℕ} {e : ℤ} {sign : Sign} {hm : 0 < m}

/-- The exponent is in range if the number is. -/
theorem IsRounded.exponent_mem (h : IsRounded v m e) (hlower : (2 : ℚ) ^ (-1000 : ℤ) ≤ v)
    (hupper : v < 2 ^ (1000 : ℤ)) : -1074 ≤ e ∧ e ≤ 971 := by
  have hpos : 0 < v := lt_of_lt_of_le (by positivity) hlower
  obtain ⟨hbelow, habove⟩ := abs_le.1 ((le_div_iff₀ (by norm_num)).2 h.abs_sub_le)
  obtain ⟨⟨hm52, hm53⟩, -⟩ := h
  have hlow : (2 : ℚ) ^ (-1000 - 1 : ℤ) < 2 ^ (53 + e) := by
    rw [zpow_add₀ (by norm_num), zpow_sub_one₀ (by norm_num), ← div_eq_mul_inv]
    calc (2 : ℚ) ^ (-1000 : ℤ) / 2 ≤ v / 2 := by gcongr
      _ ≤ m * 2 ^ e := by linarith
      _ < 2 ^ (53 : ℤ) * 2 ^ e := by gcongr; exact hm53
  have hhigh : (2 : ℚ) ^ (52 + e) < 2 ^ (1000 + 1 : ℤ) := by
    rw [zpow_add₀ (by norm_num), zpow_add_one₀ (by norm_num)]
    calc (2 : ℚ) ^ (52 : ℤ) * 2 ^ e ≤ m * 2 ^ e := by gcongr; exact hm52
      _ ≤ v * 2 := by linarith
      _ < 2 ^ (1000 : ℤ) * 2 := by gcongr
  rw [zpow_lt_zpow_iff_right₀ (by norm_num)] at hlow hhigh
  omega

theorem Decimal.coefficient_pos (h : 0 < d.value) : 0 < d.coefficient := by
  rw [Nat.pos_iff_ne_zero]
  intro hzero
  simp [Decimal.value, hzero] at h

theorem Decimal.toFloat_of_zero (h : d.value = 0) :
    d.toFloat = .ofModel (.pack (.zero .positive)) := by
  have hzero : d.coefficient = 0 := by simpa [Decimal.value] using h
  rw [Decimal.toFloat, Decimal.scaled, Float.Model.ofScientific, UnpackedFloat.ofScientific,
    dif_pos hzero]

theorem Decimal.isRounding_toFloat (h : (2 : ℚ) ^ (-1000 : ℤ) ≤ d.value) :
    IsRounding d.toFloat d.value := by
  obtain ⟨m, e, hm, heq, hrounded⟩ :=
    exists_ofScientific_eq (coefficient_pos (lt_of_lt_of_le (by positivity) h)) h
  exact ⟨m, e, hm, by rw [Decimal.toFloat, Decimal.scaled, Float.Model.ofScientific, zero_sub, heq],
    hrounded⟩

/-- Two ways to write a number are read alike. -/
theorem Decimal.toFloat_congr (hvalue : d.value = d'.value)
    (h : d.value = 0 ∨ (2 : ℚ) ^ (-1000 : ℤ) ≤ d.value) : d.toFloat = d'.toFloat := by
  rcases h with h | h
  · rw [toFloat_of_zero h, toFloat_of_zero (hvalue ▸ h)]
  · exact (isRounding_toFloat h).unique (hvalue ▸ isRounding_toFloat (hvalue ▸ h))

/-- What is read is positive, and its size is close to the value. -/
theorem Decimal.exists_magnitude (hlower : (2 : ℚ) ^ (-1000 : ℤ) ≤ d.value)
    (hupper : d.value < 2 ^ (1000 : ℤ)) :
    ∃ num den : ℕ, magnitude d.toFloat = .ratio num den ∧ isNegative d.toFloat = false ∧
      0 < num ∧ |(num : ℚ) / den - d.value| * 2 ^ 53 ≤ d.value := by
  obtain ⟨m, e, hm, heq, hrounded⟩ := isRounding_toFloat hlower
  obtain ⟨he, he'⟩ := hrounded.exponent_mem hlower hupper
  have hunpack : d.toFloat.toModel.unpack = .finite .positive m e hm := by
    rw [heq]
    exact unpack_pack_finite hrounded.1 he he' hm
  obtain ⟨num, den, hratio, hnum, hvalue⟩ := magnitude_of_unpack hunpack
  refine ⟨num, den, hratio, by rw [isNegative, hunpack], hnum, ?_⟩
  rw [hvalue]
  exact hrounded.abs_sub_le

end Calculator
