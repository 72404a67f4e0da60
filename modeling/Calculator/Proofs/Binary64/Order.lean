import Calculator.Proofs.Binary64.Rounding

/-!
# The order of binary64 numbers

Two numbers are compared by their exponents first and then by their mantissas. This is the order of
their values, since every number is stored with as large a mantissa as there is room for. Here it is
shown for the numbers that are not below zero, infinity among them; the two zeros are equal.

* `size?`: the size of a number as a rational number or infinity.
* `isCanonical_of_unpack`: which mantissas and exponents a number can have.
* `le_iff_size_le`, `lt_zero_or_nonneg`: the order.
-/

namespace Calculator

open Float.Model Float.Model.UnpackedFloat

variable {x y : Float} {v w : WithTop ℚ} {m m' : ℕ} {e e' : ℤ} {sign : Sign} {hm : 0 < m}

/-! ## The size of a number -/

/-- The value of a size; there is none for NaN. -/
def Magnitude.value? : Magnitude → Option (WithTop ℚ)
  | ratio num den => some ((num / den : ℚ) : WithTop ℚ)
  | infinite => some ⊤
  | undefined => none

/-- The size of a number, its sign left aside. -/
def size? (x : Float) : Option (WithTop ℚ) := (magnitude x).value?

/-- The size of a number, as a rational number. -/
theorem magnitude_of_unpack (h : x.toModel.unpack = .finite sign m e hm) :
    ∃ num den : ℕ, magnitude x = .ratio num den ∧ 0 < num ∧ (num : ℚ) / den = m * 2 ^ e := by
  refine ⟨m * 2 ^ e.toNat, 2 ^ (-e).toNat, by rw [magnitude, h]; rfl, by positivity, ?_⟩
  rw [zpow_eq_pow_div_pow (by norm_num), mul_div_assoc']
  norm_cast

theorem size?_of_zero (h : x.toModel.unpack = .zero sign) : size? x = some 0 := by
  simp [size?, magnitude, h, Magnitude.value?]

theorem size?_of_infinity (h : x.toModel.unpack = .infinity sign) : size? x = some ⊤ := by
  rw [size?, magnitude, h, Magnitude.value?]

theorem size?_of_finite (h : x.toModel.unpack = .finite sign m e hm) :
    size? x = some ((m * 2 ^ e : ℚ) : WithTop ℚ) := by
  obtain ⟨num, den, hratio, -, hvalue⟩ := magnitude_of_unpack h
  rw [size?, hratio, Magnitude.value?, hvalue]

/-! ## Mantissas and exponents -/

/-- A mantissa has 53 binary digits, or fewer if the exponent is the least one. -/
structure IsCanonical (m : ℕ) (e : ℤ) : Prop where
  lt : m < 2 ^ 53
  le_exponent : -1074 ≤ e
  exponent_le : e ≤ 971
  normal : 2 ^ 52 ≤ m ∨ e = -1074

theorem isCanonical_of_unpack (h : x.toModel.unpack = .finite sign m e hm) : IsCanonical m e := by
  rw [Float.Model.unpack, UnpackedFloat.unpack] at h
  have hmantissa : (@unpackMantissa .binary64 x.toModel.toBits.toBitVec).toNat < 2 ^ 52 :=
    BitVec.isLt _
  have hexponent : (@unpackExponent .binary64 x.toModel.toBits.toBitVec).toNat < 2 ^ 11 :=
    BitVec.isLt _
  have hbias : Format.binary64.exponentBias = 1023 := rfl
  simp only at h
  -- An exponent field of ones is for infinity and NaN, one of zeros for the least exponent.
  split at h
  · split at h <;> cases h
  next hones =>
    have hne := mt BitVec.eq_of_toNat_eq hones
    split at h
    next hzeros =>
      have heq := congrArg BitVec.toNat hzeros
      split at h <;> cases h
      norm_num at heq hne
      exact ⟨by omega, by omega, by omega, .inr (by omega)⟩
    next hzeros =>
      have hpos := mt BitVec.eq_of_toNat_eq hzeros
      cases h
      norm_num at hpos hne
      rw [toNat_one_append]
      exact ⟨by omega, by omega, by omega, .inl (by omega)⟩

theorem IsCanonical.lt_of_exponent_lt (h : IsCanonical m e) (h' : IsCanonical m' e')
    (hlt : e < e') : (m : ℚ) * 2 ^ e < m' * 2 ^ e' := by
  have hnormal : 2 ^ 52 ≤ m' := h'.normal.resolve_right (by have := h.le_exponent; omega)
  calc (m : ℚ) * 2 ^ e < 2 ^ 53 * 2 ^ e := by gcongr; exact_mod_cast h.lt
    _ ≤ 2 ^ 52 * 2 ^ e' := zpow_le_of_lt hlt
    _ ≤ m' * 2 ^ e' := by gcongr; exact_mod_cast hnormal

/-- The order of exponents and mantissas is that of the values. -/
theorem IsCanonical.compare_eq (h : IsCanonical m e) (h' : IsCanonical m' e') :
    (compare e e').then (compare m m') = compare ((m : ℚ) * 2 ^ e) (m' * 2 ^ e') := by
  rcases lt_trichotomy e e' with hlt | rfl | hlt
  · rw [compare_lt_iff_lt.2 hlt, compare_lt_iff_lt.2 (h.lt_of_exponent_lt h' hlt)]
    rfl
  · have hpos : (0 : ℚ) < 2 ^ e := by positivity
    rw [compare_eq_iff_eq.2 rfl]
    show compare m m' = _
    rcases lt_trichotomy m m' with hlt | rfl | hlt
    · have hvalue : (m : ℚ) * 2 ^ e < m' * 2 ^ e := by gcongr
      rw [compare_lt_iff_lt.2 hlt, compare_lt_iff_lt.2 hvalue]
    · rw [compare_eq_iff_eq.2 rfl, compare_eq_iff_eq.2 rfl]
    · have hvalue : (m' : ℚ) * 2 ^ e < m * 2 ^ e := by gcongr
      rw [compare_gt_iff_gt.2 hlt, compare_gt_iff_gt.2 hvalue]
  · rw [compare_gt_iff_gt.2 hlt, compare_gt_iff_gt.2 (h'.lt_of_exponent_lt h hlt)]
    rfl

/-! ## The order of numbers -/

theorem le_iff_compare : x ≤ y ↔ (x.toModel.unpack.compare y.toModel.unpack).any (·.isLE) := by
  show Float.le x y = true ↔ _
  simp only [Float.le, decide_eq_true_eq]
  rfl

theorem lt_iff_compare : x < y ↔ x.toModel.unpack.compare y.toModel.unpack = some .lt := by
  show Float.lt x y = true ↔ _
  simp only [Float.lt, decide_eq_true_eq]
  show UnpackedFloat.lt _ _ = true ↔ _
  rw [UnpackedFloat.lt, beq_iff_eq]

@[simp] theorem unpack_zero : (0 : Float).toModel.unpack = .zero .positive := rfl

theorem nonneg_of_unpack_infinity (h : x.toModel.unpack = .infinity .positive) : 0 ≤ x := by
  rw [le_iff_compare, unpack_zero, h]
  rfl

theorem nonneg_of_unpack_finite (h : x.toModel.unpack = .finite .positive m e hm) : 0 ≤ x := by
  rw [le_iff_compare, unpack_zero, h]
  rfl

/-- A number that is not below zero, taken apart, and its size. -/
inductive IsNonneg : UnpackedFloat → WithTop ℚ → Prop
  | infinity : IsNonneg (.infinity .positive) ⊤
  | zero (sign : Sign) : IsNonneg (.zero sign) 0
  | finite {m : ℕ} {e : ℤ} (hm : 0 < m) (h : IsCanonical m e) :
    IsNonneg (.finite .positive m e hm) ((m * 2 ^ e : ℚ) : WithTop ℚ)

theorem exists_isNonneg (h : 0 ≤ x) : ∃ v, size? x = some v ∧ IsNonneg x.toModel.unpack v := by
  rw [le_iff_compare, unpack_zero] at h
  cases hx : x.toModel.unpack with
  | notANumber => rw [hx] at h; cases h
  | zero sign => exact ⟨_, size?_of_zero hx, .zero sign⟩
  | infinity sign =>
    cases sign with
    | positive => exact ⟨_, size?_of_infinity hx, .infinity⟩
    | negative => rw [hx] at h; cases h
  | finite sign m e hm =>
    cases sign with
    | positive => exact ⟨_, size?_of_finite hx, .finite hm (isCanonical_of_unpack hx)⟩
    | negative => rw [hx] at h; cases h

theorem isNonneg_of_size (h : 0 ≤ x) (hv : size? x = some v) : IsNonneg x.toModel.unpack v := by
  obtain ⟨w, hw, hx⟩ := exists_isNonneg h
  rwa [Option.some.inj (hv.symm.trans hw)]

theorem IsNonneg.compare_iff {a b : UnpackedFloat} (h : IsNonneg a v) (h' : IsNonneg b w) :
    (a.compare b).any (·.isLE) ↔ v ≤ w := by
  cases h with
  | infinity =>
    cases h' with
    | infinity => exact iff_of_true rfl le_rfl
    | zero => exact iff_of_false Bool.false_ne_true (not_le_of_gt (WithTop.coe_lt_top _))
    | finite => exact iff_of_false Bool.false_ne_true (not_le_of_gt (WithTop.coe_lt_top _))
  | zero =>
    cases h' with
    | infinity => exact iff_of_true rfl le_top
    | zero => exact iff_of_true rfl le_rfl
    | finite => exact iff_of_true rfl (by norm_cast; positivity)
  | finite _ h =>
    cases h' with
    | infinity => exact iff_of_true rfl le_top
    | zero => exact iff_of_false Bool.false_ne_true (by norm_cast; rw [not_le]; positivity)
    | finite _ h' =>
      rw [WithTop.coe_le_coe, ← compare_le_iff_le, ← h.compare_eq h']
      exact Ordering.isLE_iff_ne_gt

/-- Numbers that are not below zero are in the order of their sizes. -/
theorem le_iff_size_le (hx : 0 ≤ x) (hy : 0 ≤ y) (hv : size? x = some v) (hw : size? y = some w) :
    x ≤ y ↔ v ≤ w :=
  le_iff_compare.trans ((isNonneg_of_size hx hv).compare_iff (isNonneg_of_size hy hw))

theorem IsNonneg.zero_le {a b : UnpackedFloat} (h : IsNonneg a v)
    (hle : (a.compare b).any (·.isLE)) :
    ((UnpackedFloat.zero .positive).compare b).any (·.isLE) := by
  cases b with
  | notANumber => cases h <;> cases hle
  | zero => rfl
  | infinity sign | finite sign =>
    cases sign with
    | positive => rfl
    | negative => cases h <;> cases hle

theorem nonneg_of_le (hx : 0 ≤ x) (h : x ≤ y) : 0 ≤ y := by
  obtain ⟨v, -, hx⟩ := exists_isNonneg hx
  exact le_iff_compare.2 (hx.zero_le (le_iff_compare.1 h))

theorem le_trans_of_nonneg {z : Float} (hx : 0 ≤ x) (h : x ≤ y) (h' : y ≤ z) : x ≤ z := by
  have hy := nonneg_of_le hx h
  have hz := nonneg_of_le hy h'
  obtain ⟨u, hu, -⟩ := exists_isNonneg hx
  obtain ⟨v, hv, -⟩ := exists_isNonneg hy
  obtain ⟨w, hw, -⟩ := exists_isNonneg hz
  rw [le_iff_size_le hx hy hu hv] at h
  rw [le_iff_size_le hy hz hv hw] at h'
  exact (le_iff_size_le hx hz hu hw).2 (h.trans h')

theorem le_refl_of_nonneg (hx : 0 ≤ x) : x ≤ x := by
  obtain ⟨v, hv, -⟩ := exists_isNonneg hx
  exact (le_iff_size_le hx hx hv hv).2 le_rfl

/-- Only NaN is not compared with zero. -/
theorem lt_zero_or_nonneg (h : ¬x.isNaN) : x < 0 ∨ 0 ≤ x := by
  rw [le_iff_compare, lt_iff_compare, unpack_zero]
  cases hx : x.toModel.unpack with
  | notANumber => exact absurd (by rw [Float.isNaN, Float.Model.isNaN, hx]; rfl) h
  | zero => exact .inr rfl
  | infinity sign | finite sign =>
    cases sign with
    | positive => exact .inr rfl
    | negative => exact .inl rfl

theorem not_lt_zero_of_nonneg (h : 0 ≤ x) : ¬x < 0 := by
  obtain ⟨v, -, hx⟩ := exists_isNonneg h
  rw [lt_iff_compare, unpack_zero]
  generalize x.toModel.unpack = a at hx
  cases hx <;> rintro ⟨⟩

theorem zero_lt_iff (h : 0 ≤ x) (hv : size? x = some v) : 0 < x ↔ v ≠ 0 := by
  have hx := isNonneg_of_size h hv
  rw [lt_iff_compare, unpack_zero]
  generalize x.toModel.unpack = a at hx
  cases hx with
  | infinity => exact iff_of_true rfl WithTop.top_ne_zero
  | zero => exact iff_of_false (by rintro ⟨⟩) (not_not.2 rfl)
  | finite => exact iff_of_true rfl (by norm_cast; positivity)

theorem nonneg_of_pos (h : 0 < x) : 0 ≤ x := by
  rw [lt_iff_compare, unpack_zero] at h
  rw [le_iff_compare, unpack_zero, h]
  rfl

theorem isInf_iff (h : 0 ≤ x) : x.isInf ↔ size? x = some ⊤ := by
  obtain ⟨v, hv, hx⟩ := exists_isNonneg h
  rw [hv, Option.some.injEq, Float.isInf, Float.Model.isInf]
  generalize x.toModel.unpack = a at hx
  cases hx with
  | infinity => exact iff_of_true rfl rfl
  | zero => exact iff_of_false Bool.false_ne_true WithTop.zero_ne_top
  | finite => exact iff_of_false Bool.false_ne_true WithTop.coe_ne_top

theorem isFinite_iff (h : 0 ≤ x) : x.isFinite ↔ size? x ≠ some ⊤ := by
  obtain ⟨v, hv, hx⟩ := exists_isNonneg h
  rw [hv, ne_eq, Option.some.injEq, Float.isFinite, Float.Model.isFinite]
  generalize x.toModel.unpack = a at hx
  cases hx with
  | infinity => exact iff_of_false Bool.false_ne_true (not_not.2 rfl)
  | zero => exact iff_of_true rfl WithTop.zero_ne_top
  | finite => exact iff_of_true rfl WithTop.coe_ne_top

theorem unpack_of_size_eq_top (hx : 0 ≤ x) (h : size? x = some ⊤) :
    x.toModel.unpack = .infinity .positive := by
  have hform := isNonneg_of_size hx h
  generalize x.toModel.unpack = a at hform
  generalize hv : (⊤ : WithTop ℚ) = v at hform
  cases hform with
  | infinity => rfl
  | zero | finite => cases hv

/-- There is one infinite number above zero. -/
theorem eq_of_size_eq_top (hx : 0 ≤ x) (hy : 0 ≤ y) (hv : size? x = some ⊤)
    (hw : size? y = some ⊤) : x = y := by
  rw [← ofModel_pack_unpack x, ← ofModel_pack_unpack y, unpack_of_size_eq_top hx hv,
    unpack_of_size_eq_top hy hw]

end Calculator
