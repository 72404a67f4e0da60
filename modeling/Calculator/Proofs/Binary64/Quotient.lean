import Calculator.Proofs.Binary64.Rounding

/-!
# Decimal fractions as binary64 numbers

A natural over a power of ten is divided with so many binary digits behind the dividend that the
quotient has 53 of them at least. What is cut off is told to the rounding by the remainder.

* `exists_div_eq`, `exists_mul_one_eq`: quotients of naturals, and naturals, are rounded.
* `exists_ofScientific_eq`: so is a decimal fraction that is not too small.
-/

namespace Calculator

open Float.Model Float.Model.UnpackedFloat

variable {a b : ℕ}

/-- Enough digits put behind a dividend give a quotient of 53 digits or more. -/
theorem le_shiftLeft_div (ha : 0 < a) (hb : 0 < b) {s : ℕ} (hs : b.log2 + 53 ≤ a.log2 + s) :
    2 ^ 52 ≤ a <<< s / b := by
  rw [Nat.le_div_iff_mul_le hb, Nat.shiftLeft_eq]
  calc 2 ^ 52 * b ≤ 2 ^ 52 * 2 ^ (b.log2 + 1) := by gcongr; exact Nat.lt_log2_self.le
    _ = 2 ^ (b.log2 + 53) := by rw [← pow_add]; congr 1; omega
    _ ≤ 2 ^ (a.log2 + s) := Nat.pow_le_pow_right (by decide) hs
    _ = 2 ^ a.log2 * 2 ^ s := pow_add _ _ _
    _ ≤ a * 2 ^ s := Nat.mul_le_mul_right _ (Nat.log2_self_le ha.ne')

theorem div_lt_zpow_log2 (hb : 0 < b) : (a : ℚ) / b < 2 ^ ((a.log2 : ℤ) + 1 - b.log2) := by
  have hlower : (2 : ℚ) ^ b.log2 ≤ b := by exact_mod_cast Nat.log2_self_le hb.ne'
  have hupper : (a : ℚ) < 2 ^ (a.log2 + 1) := by exact_mod_cast Nat.lt_log2_self
  have hpow : (2 : ℚ) ^ ((a.log2 : ℤ) + 1 - b.log2) = 2 ^ (a.log2 + 1) / 2 ^ b.log2 := by
    rw [zpow_sub₀ (by norm_num), zpow_natCast]
    norm_cast
  rw [hpow]
  calc (a : ℚ) / b ≤ a / 2 ^ b.log2 := by gcongr
    _ < 2 ^ (a.log2 + 1) / 2 ^ b.log2 := by gcongr

/-- A quotient of naturals is rounded as it should be. -/
theorem exists_div_eq (ha : 0 < a) (hb : 0 < b) (h : (2 : ℚ) ^ (-1000 : ℤ) ≤ a / b) :
    ∃ m e hm, div .binary64 (.finite .positive a 0 ha) (.finite .positive b 0 hb) =
      .finite .positive m e hm ∧ IsRounded (a / b) m e := by
  have hlog : -1000 < (a.log2 : ℤ) + 1 - b.log2 :=
    (zpow_lt_zpow_iff_right₀ (by norm_num)).1 (h.trans_lt (div_lt_zpow_log2 hb))
  obtain ⟨s, hs⟩ : ∃ s : ℕ, (s : ℤ) = max 0 (b.log2 + 53 - a.log2) :=
    ⟨(max 0 ((b.log2 : ℤ) + 53 - a.log2)).toNat, by omega⟩
  have htarget : min (0 - 0) (max (totalExponent a 0 - totalExponent b 0 - 53) (-1074)) =
      -(s : ℤ) := by
    simp only [totalExponent]
    omega
  have hcore : divCore .binary64 a 0 b 0 =
      (a <<< s / b, -(s : ℤ), accuracyOfFraction (a <<< s % b) b) := by
    simp only [divCore, targetExponent_binary64, htarget]
    rw [show (0 - 0 - -(s : ℤ)).toNat = s by omega]
  obtain ⟨m, e, hm, hround, hrounded⟩ := roundWithAccuracy_eq .positive
    (represents_quotient hb) (le_shiftLeft_div ha hb (s := s) (by omega)) (e := -(s : ℤ)) (by omega)
  refine ⟨m, e, hm, ?_, ?_⟩
  · simp only [UnpackedFloat.div, hcore]
    exact hround
  · have hvalue : ((a <<< s : ℕ) : ℚ) / b * 2 ^ (-(s : ℤ)) = a / b := by
      rw [Nat.shiftLeft_eq, zpow_neg, zpow_natCast]
      push_cast
      field_simp
    rwa [hvalue] at hrounded

/-- A natural is rounded as it should be. -/
theorem exists_mul_one_eq (ha : 0 < a) (ha' : 0 < a <<< 53) :
    ∃ m e hm, mul .binary64 (.finite .positive (a <<< 53) (-53) ha')
        (.finite .positive 1 0 Nat.one_pos) = .finite .positive m e hm ∧ IsRounded a m e := by
  have hlarge : 2 ^ 52 ≤ a <<< 53 * 1 := by
    rw [Nat.shiftLeft_eq]
    omega
  obtain ⟨m, e, hm, hround, hrounded⟩ :=
    roundWithAccuracy_eq .positive (represents_exact _) hlarge (e := -53 + 0) (by omega)
  refine ⟨m, e, hm, hround, ?_⟩
  have hvalue : ((a <<< 53 * 1 : ℕ) : ℚ) * 2 ^ (-53 + 0 : ℤ) = a := by
    rw [Nat.shiftLeft_eq]
    push_cast
    norm_num
    ring
  rwa [hvalue] at hrounded

/-- A decimal fraction is rounded as it should be. -/
theorem exists_ofScientific_eq {k : ℕ} (ha : 0 < a) (h : (2 : ℚ) ^ (-1000 : ℤ) ≤ a / 10 ^ k) :
    ∃ m e hm, UnpackedFloat.ofScientific .binary64 a (-k) = .finite .positive m e hm ∧
      IsRounded (a / 10 ^ k) m e := by
  have hcast : (a : ℚ) / 10 ^ k = a / (10 ^ k : ℕ) := by push_cast; rfl
  rw [hcast] at h ⊢
  -- The guard against huge powers of ten is for numbers that are far smaller.
  have hguard : ¬(-(k : ℤ) < -((2 ^ Format.binary64.exponentBits : ℤ) + a.log2)) := by
    intro hlt
    have hk : k ≤ (10 ^ k).log2 :=
      (Nat.le_log2 (by positivity)).2 (Nat.pow_le_pow_left (by decide) k)
    have hlog := (zpow_lt_zpow_iff_right₀ (by norm_num)).1
      (h.trans_lt (div_lt_zpow_log2 (b := 10 ^ k) (by positivity)))
    norm_num at hlt
    omega
  have hle : ¬(-(k : ℤ) > 2 ^ Format.binary64.exponentBits) := by
    norm_num
  rw [UnpackedFloat.ofScientific, dif_neg ha.ne', if_neg hle, if_neg hguard]
  rcases Nat.eq_zero_or_pos k with rfl | hk
  · rw [if_pos (by omega), pow_zero, Nat.cast_one, div_one]
    exact exists_mul_one_eq ha _
  · rw [if_neg (by omega)]
    simpa only [neg_neg, Int.toNat_natCast] using exists_div_eq ha (by positivity) h

end Calculator
