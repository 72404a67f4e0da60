import Calculator.Proofs.Binary64.Order
import Calculator.Proofs.Binary64.Quotient

/-!
# Naturals and products in binary64

The numbers from one on, as far as they are products of naturals: how large a rounded number is, and
where it becomes infinite.

* `IsRounding.exists_size`, `IsRounding.size_eq_top`: a rounded number is close to what was rounded,
  or infinite.
* `isRounding_ofNat`, `size?_ofNat`: naturals are rounded, and exact up to 53 binary digits.
* `ofNat_add_one`: so is counting.
* `isRounding_mul`, `le_mul`: products are rounded, and do not fall below their factors.
-/

namespace Calculator

open Float.Model Float.Model.UnpackedFloat

variable {x y : Float} {w : WithTop ℚ} {q : ℚ} {m n k : ℕ} {e d : ℤ}

/-! ## Rounded numbers from one on -/

@[simp] theorem unpack_one :
    (1 : Float).toModel.unpack = .finite .positive (2 ^ 52) (-52) (by decide) := rfl

theorem one_eq_mul_zpow : (2 ^ 52 : ℕ) * (2 : ℚ) ^ (-52 : ℤ) = 1 := by norm_num

theorem isNormal_one : IsNormal (2 ^ 52 : ℕ) := ⟨by norm_num, by norm_num⟩

theorem exponent_of_one_le (hm : IsNormal m) (h : (1 : ℚ) ≤ m * 2 ^ e) : -52 ≤ e := by
  have hlt : (2 : ℚ) ^ (0 : ℤ) < 2 ^ (53 + e) := by
    rw [zpow_zero, zpow_add₀ (by norm_num)]
    calc (1 : ℚ) ≤ m * 2 ^ e := h
      _ < 2 ^ (53 : ℤ) * 2 ^ e := by gcongr; exact hm.2
  have := (zpow_lt_zpow_iff_right₀ (by norm_num)).1 hlt
  omega

/-- A rounded number is infinite if its exponent is too large. -/
theorem IsRounding.exists_unpack (h : IsRounding x q) (hq : 1 ≤ q) :
    ∃ m e, IsRounded q m e ∧ ((e ≤ 971 ∧ ∃ hm, x.toModel.unpack = .finite .positive m e hm) ∨
      (971 < e ∧ x.toModel.unpack = .infinity .positive)) := by
  obtain ⟨m, e, hm, rfl, hrounded⟩ := h
  have hone : (1 : ℚ) ≤ m * 2 ^ e := by
    have hle := hrounded.le_of_le isNormal_one (one_eq_mul_zpow.trans_le hq)
    rwa [one_eq_mul_zpow] at hle
  refine ⟨m, e, hrounded, ?_⟩
  rcases le_or_gt e 971 with he | he
  · have := exponent_of_one_le hrounded.1 hone
    exact .inl ⟨he, hm, unpack_pack_finite hrounded.1 (by omega) he hm⟩
  · exact .inr ⟨he, unpack_pack_overflow he hm⟩

theorem IsRounding.zero_le (h : IsRounding x q) (hq : 1 ≤ q) : 0 ≤ x := by
  obtain ⟨m, e, -, ⟨-, hm, hx⟩ | ⟨-, hx⟩⟩ := h.exists_unpack hq
  · exact nonneg_of_unpack_finite hx
  · exact nonneg_of_unpack_infinity hx

/-- What is not below a number that can be stored is not rounded below it. -/
theorem IsRounding.le_size (h : IsRounding x q) (hq : 1 ≤ q) (hm : IsNormal m)
    (hle : m * 2 ^ e ≤ q) (hw : size? x = some w) : ((m * 2 ^ e : ℚ) : WithTop ℚ) ≤ w := by
  obtain ⟨n, d, hrounded, ⟨-, hn, hx⟩ | ⟨-, hx⟩⟩ := h.exists_unpack hq
  · rw [size?_of_finite hx, Option.some.injEq] at hw
    rw [← hw, WithTop.coe_le_coe]
    exact hrounded.le_of_le hm hle
  · rw [size?_of_infinity hx, Option.some.injEq] at hw
    rw [← hw]
    exact le_top

/-- What is not too large is rounded to a number close to it. -/
theorem IsRounding.exists_size (h : IsRounding x q) (hq : 1 ≤ q)
    (hlt : q * (1 + 1 / 2 ^ 53) < 2 ^ (1024 : ℤ)) :
    ∃ s : ℚ, size? x = some (s : WithTop ℚ) ∧
      q * (1 - 1 / 2 ^ 53) ≤ s ∧ s ≤ q * (1 + 1 / 2 ^ 53) := by
  obtain ⟨m, e, hrounded, hx⟩ := h.exists_unpack hq
  obtain ⟨hlower, hupper⟩ := abs_le.1 ((le_div_iff₀ (by norm_num)).2 hrounded.abs_sub_le)
  obtain ⟨-, hm, hx⟩ | ⟨he, hx⟩ := hx
  · exact ⟨_, size?_of_finite hx, by linarith only [hlower], by linarith only [hupper]⟩
  · refine absurd hlt (not_lt_of_ge ?_)
    have hpow : (2 : ℚ) ^ (1024 : ℤ) = 2 ^ 52 * 2 ^ (972 : ℤ) := by
      rw [← zpow_natCast, ← zpow_add₀ (by norm_num)]
      norm_num
    calc (2 : ℚ) ^ (1024 : ℤ) = 2 ^ 52 * 2 ^ (972 : ℤ) := hpow
      _ ≤ m * 2 ^ e :=
        mul_le_mul hrounded.1.1 (zpow_le_zpow_right₀ (by norm_num) (by omega))
          (zpow_pos (by norm_num) _).le (Nat.cast_nonneg m)
      _ ≤ q * (1 + 1 / 2 ^ 53) := by linarith only [hupper]

/-- What is too large is rounded to infinity. -/
theorem IsRounding.size_eq_top (h : IsRounding x q) (hq : 1 ≤ q)
    (hle : 2 ^ (1024 : ℤ) ≤ q * (1 - 1 / 2 ^ 53)) : size? x = some ⊤ := by
  obtain ⟨m, e, hrounded, hx⟩ := h.exists_unpack hq
  obtain ⟨hlower, -⟩ := abs_le.1 ((le_div_iff₀ (by norm_num)).2 hrounded.abs_sub_le)
  obtain ⟨he, hm, hx⟩ | ⟨-, hx⟩ := hx
  · refine absurd hle (not_le_of_gt ?_)
    calc q * (1 - 1 / 2 ^ 53) ≤ m * 2 ^ e := by linarith only [hlower]
      _ < 2 ^ 53 * 2 ^ e := by gcongr; exact hrounded.1.2
      _ ≤ 2 ^ 53 * 2 ^ (971 : ℤ) := by
        gcongr
        norm_num
      _ = 2 ^ (1024 : ℤ) := by rw [← zpow_natCast, ← zpow_add₀ (by norm_num)]; norm_num
  · exact size?_of_infinity hx

/-- What can be stored is not changed. -/
theorem IsRounding.unpack_of_isNormal (h : IsRounding x (m * 2 ^ e)) (hq : 1 ≤ (m * 2 ^ e : ℚ))
    (hm : IsNormal m) (he : e ≤ 971) : ∃ hm, x.toModel.unpack = .finite .positive m e hm := by
  obtain ⟨n, d, hrounded, hx⟩ := h.exists_unpack hq
  obtain ⟨rfl, rfl⟩ := hrounded.unique (isRounded_self hm)
  obtain ⟨-, hx⟩ | ⟨he', -⟩ := hx
  · exact hx
  · omega

/-! ## Products -/

theorem isRounding_mul_of_unpack {m' : ℕ} {e' : ℤ} {hm : 0 < m} {hm' : 0 < m'}
    (hx : x.toModel.unpack = .finite .positive m e hm)
    (hy : y.toModel.unpack = .finite .positive m' e' hm') (hnormal : IsNormal m)
    (he : -1074 ≤ e + e') : IsRounding (x * y) (m * 2 ^ e * (m' * 2 ^ e')) := by
  have hlarge : 2 ^ 52 ≤ m * m' :=
    le_trans (by exact_mod_cast hnormal.1) (Nat.le_mul_of_pos_right m hm')
  obtain ⟨n, d, hpos, hround, hrounded⟩ :=
    roundWithAccuracy_eq .positive (represents_exact _) hlarge he
  refine ⟨n, d, hpos, ?_, ?_⟩
  · show Float.ofModel (.pack (mul .binary64 x.toModel.unpack y.toModel.unpack)) = _
    rw [hx, hy, ← hround]
    rfl
  · have hvalue : ((m * m' : ℕ) : ℚ) * 2 ^ (e + e') = m * 2 ^ e * (m' * 2 ^ e') := by
      rw [zpow_add₀ (by norm_num)]
      push_cast
      ring
    rwa [hvalue] at hrounded

@[simp] theorem size?_one : size? 1 = some 1 := by
  rw [size?_of_finite unpack_one, one_eq_mul_zpow]
  rfl

@[simp] theorem nonneg_one : (0 : Float) ≤ 1 := nonneg_of_unpack_finite unpack_one

theorem nonneg_of_one_le (h : 1 ≤ x) : 0 ≤ x := nonneg_of_le nonneg_one h

theorem one_le_iff (h : 0 ≤ x) (hw : size? x = some w) : 1 ≤ x ↔ 1 ≤ w :=
  le_iff_size_le nonneg_one h size?_one hw

/-- A number from one on is infinite, or has a mantissa of 53 digits. -/
theorem exists_unpack_of_one_le (h : 1 ≤ x) :
    x.toModel.unpack = .infinity .positive ∨
      ∃ m e hm, x.toModel.unpack = .finite .positive m e hm ∧ IsNormal m ∧ (1 : ℚ) ≤ m * 2 ^ e := by
  obtain ⟨v, hv, hform⟩ := exists_isNonneg (nonneg_of_one_le h)
  rw [one_le_iff (nonneg_of_one_le h) hv] at h
  generalize x.toModel.unpack = a at hform
  cases hform with
  | infinity => exact .inl rfl
  | zero => exact absurd h (by norm_num)
  | @finite m e hm hcanonical =>
    have hone : (1 : ℚ) ≤ m * 2 ^ e := by exact_mod_cast h
    have hnormal : 2 ^ 52 ≤ m := by
      refine hcanonical.normal.resolve_right ?_
      rintro rfl
      have hlt := hcanonical.lt_of_exponent_lt (isCanonical_of_unpack unpack_one) (by norm_num)
      rw [one_eq_mul_zpow] at hlt
      exact absurd hone (not_le_of_gt hlt)
    exact .inr ⟨m, e, hm, rfl, ⟨by exact_mod_cast hnormal, by exact_mod_cast hcanonical.lt⟩, hone⟩

theorem isRounding_mul {s t : ℚ} (hx : 1 ≤ x) (hy : 1 ≤ y) (hs : size? x = some (s : WithTop ℚ))
    (ht : size? y = some (t : WithTop ℚ)) : IsRounding (x * y) (s * t) := by
  obtain hunpack | ⟨m, e, hm, hunpack, hnormal, hone⟩ := exists_unpack_of_one_le hx
  · rw [size?_of_infinity hunpack] at hs
    cases hs
  obtain hunpack' | ⟨m', e', hm', hunpack', hnormal', hone'⟩ := exists_unpack_of_one_le hy
  · rw [size?_of_infinity hunpack'] at ht
    cases ht
  rw [size?_of_finite hunpack, Option.some.injEq, WithTop.coe_inj] at hs
  rw [size?_of_finite hunpack', Option.some.injEq, WithTop.coe_inj] at ht
  have he := exponent_of_one_le hnormal hone
  have he' := exponent_of_one_le hnormal' hone'
  rw [← hs, ← ht]
  exact isRounding_mul_of_unpack hunpack hunpack' hnormal (by omega)

theorem unpack_mul : (x * y).toModel.unpack =
    (Float.Model.pack (mul .binary64 x.toModel.unpack y.toModel.unpack)).unpack := rfl

theorem unpack_pack_infinity :
    (Float.Model.pack (.infinity .positive)).unpack = .infinity .positive := rfl

theorem le_of_unpack_eq_infinity (hx : 0 ≤ x) (hy : y.toModel.unpack = .infinity .positive) :
    x ≤ y := by
  obtain ⟨v, hv, -⟩ := exists_isNonneg hx
  exact (le_iff_size_le hx (nonneg_of_unpack_infinity hy) hv (size?_of_infinity hy)).2 le_top

/-- A factor from one on does not make a number smaller. -/
theorem le_mul (hx : 1 ≤ x) (hy : 1 ≤ y) : x ≤ x * y := by
  have hnonneg := nonneg_of_one_le hx
  obtain hunpack | ⟨m, e, hm, hunpack, hnormal, hone⟩ := exists_unpack_of_one_le hx
  · refine le_of_unpack_eq_infinity hnonneg ?_
    obtain hunpack' | ⟨_, _, _, hunpack', -⟩ := exists_unpack_of_one_le hy <;>
      rw [unpack_mul, hunpack, hunpack'] <;> exact unpack_pack_infinity
  obtain hunpack' | ⟨m', e', hm', hunpack', hnormal', hone'⟩ := exists_unpack_of_one_le hy
  · refine le_of_unpack_eq_infinity hnonneg ?_
    rw [unpack_mul, hunpack, hunpack']
    exact unpack_pack_infinity
  · -- The rounded product is not below the factor, which can be stored.
    have hle : (m : ℚ) * 2 ^ e ≤ m * 2 ^ e * (m' * 2 ^ e') :=
      le_mul_of_one_le_right (by linarith) hone'
    have hround := isRounding_mul hx hy (size?_of_finite hunpack) (size?_of_finite hunpack')
    obtain ⟨w, hw, -⟩ := exists_isNonneg (hround.zero_le (hone.trans hle))
    rw [le_iff_size_le hnonneg (hround.zero_le (hone.trans hle)) (size?_of_finite hunpack) hw]
    exact hround.le_size (hone.trans hle) hnormal hle hw

/-! ## Naturals -/

theorem isNormal_shiftLeft (hk : 0 < k) (hlt : k < 2 ^ 53) :
    IsNormal (k <<< (52 - k.log2) : ℕ) := by
  have hlog : k.log2 < 53 := (Nat.log2_lt hk.ne').2 hlt
  have hpow : 2 ^ k.log2 * 2 ^ (52 - k.log2) = 2 ^ 52 := by
    rw [← pow_add]
    congr 1
    omega
  have hlower : 2 ^ 52 ≤ k * 2 ^ (52 - k.log2) :=
    hpow ▸ Nat.mul_le_mul_right _ (Nat.log2_self_le hk.ne')
  have hupper : k * 2 ^ (52 - k.log2) < 2 ^ 53 := by
    calc k * 2 ^ (52 - k.log2) < 2 ^ (k.log2 + 1) * 2 ^ (52 - k.log2) := by
          gcongr
          exact Nat.lt_log2_self
      _ = 2 ^ 53 := by rw [pow_succ, mul_right_comm, hpow]; norm_num
  rw [Nat.shiftLeft_eq]
  exact ⟨by exact_mod_cast hlower, by exact_mod_cast hupper⟩

theorem natCast_shiftLeft (k n : ℕ) : ((k <<< n : ℕ) : ℚ) * 2 ^ (-(n : ℤ)) = k := by
  rw [Nat.shiftLeft_eq, zpow_neg, zpow_natCast]
  push_cast
  field_simp

theorem IsRounding.unpack_natCast (h : IsRounding x k) (hk : 0 < k) (hlt : k < 2 ^ 53) :
    ∃ hm, x.toModel.unpack =
      .finite .positive (k <<< (52 - k.log2)) (-(52 - k.log2 : ℕ)) hm := by
  have hvalue := natCast_shiftLeft k (52 - k.log2)
  rw [← hvalue] at h
  refine h.unpack_of_isNormal ?_ (isNormal_shiftLeft hk hlt) (by omega)
  rw [hvalue]
  exact_mod_cast hk

theorem normalize_natCast (hk : 0 < k) :
    normalize .binary64 k e .positive = round .binary64 .positive k e := by
  have hcompare : compare (k : ℤ) 0 = .gt := compare_gt_iff_gt.2 (by exact_mod_cast hk)
  rw [UnpackedFloat.normalize, hcompare]
  rfl

/-- A natural of any size is rounded, and becomes infinite if it is too large. -/
theorem isRounding_ofNat (hk : 0 < k) : IsRounding (Float.ofNat k) k := by
  show IsRounding (Float.ofScientific k false 0) k
  rw [Float.ofScientific]
  split
  next h =>
    -- A small one is converted exactly, and multiplied by one.
    have hword : k.toUInt64.toNat = k := by
      rw [UInt64.toNat_ofNat']
      omega
    obtain ⟨m, e, hm, hround, hrounded⟩ := exists_round_eq .positive (e := 0) hk (by omega)
    rw [zpow_zero, mul_one] at hrounded
    have hconverted : IsRounding k.toUInt64.toFloat k := by
      refine ⟨m, e, hm, ?_, hrounded⟩
      rw [UInt64.toFloat, Float.Model.ofUInt64, UnpackedFloat.ofUInt64, hword,
        UnpackedFloat.ofNat, UnpackedFloat.ofInt, normalize_natCast hk, hround]
    obtain ⟨hpos, hunpack⟩ := hconverted.unpack_natCast hk h.1
    have hproduct := isRounding_mul_of_unpack hunpack unpack_one (isNormal_shiftLeft hk h.1)
      (by omega)
    rwa [natCast_shiftLeft, one_eq_mul_zpow, mul_one] at hproduct
  next h =>
    have hlower : (2 : ℚ) ^ (-1000 : ℤ) ≤ k / 10 ^ 0 := by
      rw [pow_zero, div_one]
      calc (2 : ℚ) ^ (-1000 : ℤ) ≤ 1 := zpow_le_one_of_nonpos₀ (by norm_num) (by norm_num)
        _ ≤ k := by exact_mod_cast hk
    obtain ⟨m, e, hm, heq, hrounded⟩ := exists_ofScientific_eq hk hlower
    rw [pow_zero, div_one] at hrounded
    exact ⟨m, e, hm, congrArg _ (congrArg _ heq), hrounded⟩

theorem one_le_ofNat (hk : 0 < k) : 1 ≤ Float.ofNat k := by
  have hround := isRounding_ofNat hk
  have hone : (1 : ℚ) ≤ k := by exact_mod_cast hk
  obtain ⟨w, hw, -⟩ := exists_isNonneg (hround.zero_le hone)
  have hle := hround.le_size hone isNormal_one (one_eq_mul_zpow.trans_le hone) hw
  rw [one_eq_mul_zpow] at hle
  exact (one_le_iff (hround.zero_le hone) hw).2 hle

theorem unpack_ofNat (hk : 0 < k) (hlt : k < 2 ^ 53) :
    ∃ hm, (Float.ofNat k).toModel.unpack =
      .finite .positive (k <<< (52 - k.log2)) (-(52 - k.log2 : ℕ)) hm :=
  (isRounding_ofNat hk).unpack_natCast hk hlt

/-- Naturals of up to 53 binary digits are exact. -/
theorem size?_ofNat (hk : 0 < k) (hlt : k < 2 ^ 53) :
    size? (Float.ofNat k) = some (k : WithTop ℚ) := by
  obtain ⟨hm, hunpack⟩ := unpack_ofNat hk hlt
  rw [size?_of_finite hunpack, natCast_shiftLeft]
  rfl

/-- So it is possible to count up to them. -/
theorem ofNat_add_one (hk : 0 < k) (hlt : k < 2 ^ 53) :
    Float.ofNat k + 1 = Float.ofNat (k + 1) := by
  obtain ⟨hm, hunpack⟩ := unpack_ofNat hk hlt
  have hlog : k.log2 < 53 := (Nat.log2_lt hk.ne').2 hlt
  -- Both are written with the exponent of one, and the sum is rounded.
  have hlarge : 52 ≤ ((k + 1) * 2 ^ 52).log2 := (Nat.le_log2 (by omega)).2 (by omega)
  obtain ⟨m, e, hm', hround, hrounded⟩ :=
    exists_round_eq (m := (k + 1) * 2 ^ 52) .positive (e := -52) (by omega) (by omega)
  have hsum : add .binary64 (Float.ofNat k).toModel.unpack (1 : Float).toModel.unpack =
      .finite .positive m e hm' := by
    have hexponent : min (-(52 - k.log2 : ℕ) : ℤ) (-52) = -52 := by omega
    have hshift : (k <<< (52 - k.log2)) <<< k.log2 = k * 2 ^ 52 := by
      rw [← Nat.shiftLeft_add, Nat.sub_add_cancel (by omega), Nat.shiftLeft_eq]
    rw [hunpack, unpack_one, ← hround, ← normalize_natCast (by omega)]
    simp only [UnpackedFloat.add, hexponent, decreaseExponent, Sign.apply]
    rw [show (-(52 - k.log2 : ℕ) - -52 : ℤ).toNat = k.log2 by omega, hshift, Nat.add_one_mul,
      Nat.cast_add]
    rfl
  have hvalue : (((k + 1) * 2 ^ 52 : ℕ) : ℚ) * 2 ^ (-52 : ℤ) = (k + 1 : ℕ) := by
    rw [Nat.cast_mul, mul_assoc, one_eq_mul_zpow, mul_one]
  rw [hvalue] at hrounded
  refine IsRounding.unique ⟨m, e, hm', ?_, hrounded⟩ (isRounding_ofNat k.succ_pos)
  rw [← hsum]
  rfl

end Calculator
