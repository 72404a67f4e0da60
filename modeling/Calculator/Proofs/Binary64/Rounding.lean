import Calculator.Binary64
import Calculator.Proofs.Decimal.Nearest
import Mathlib

/-!
# Rounding to binary64

The model of the binary64 numbers rounds a mantissa by its residual bits. Here the result is
described on the rational numbers: the mantissa of 53 binary digits nearest to the number, a tie
going to the even one. The description has one result only, so that two ways to write a number are
rounded alike.

That packing undoes unpacking is known of the model itself (`pack_unpack_of_valid`). No module of
Mathlib by itself brings this lemma along, and so all of Mathlib is imported.

* `Represents`: what the mantissa and its residual bits say about a number, kept by every shift.
* `IsRounded.unique`, `IsRounded.abs_sub_le`: rounding has one result, and its error is bounded.
* `IsRounded.le_of_le`: nothing is rounded below a number that could be stored.
* `roundWithAccuracy_eq`, `exists_round_eq`: a mantissa is rounded in this way.
* `unpack_pack_finite`, `unpack_pack_overflow`: what is too large is packed as infinity, and of all
  else nothing is lost.
* `IsRounding`: a number that is the result.
-/

namespace Calculator

open Float.Model Float.Model.UnpackedFloat

variable {q v : ℚ} {em : ExtendedMantissa} {m n : ℕ} {e d : ℤ} {acc : Accuracy}

/-! ## The format -/

@[simp] theorem exponentBias_binary64 : Format.binary64.exponentBias = 1023 := rfl

/-- The exponent that leaves 53 digits, unless it is below the least one. -/
@[simp] theorem targetExponent_binary64 (e : ℤ) :
    Format.binary64.targetExponent e = max (e - 53) (-1074) := rfl

@[simp] theorem mantissa_ofMantissaAndAccuracy :
    (ExtendedMantissa.ofMantissaAndAccuracy m acc).mantissa = m := by
  rcases acc with _ | _ | _ | _ <;> rfl

/-! ## A mantissa and what is behind it -/

section ResidualBits

attribute [local simp] ExtendedMantissa.ofMantissaAndAccuracy ExtendedMantissa.roundedMantissa
  ExtendedMantissa.accuracy Accuracy.roundToNearestEven

/-- The mantissa is the whole part of `q`, and the residual bits say where the rest lies. -/
def Represents (em : ExtendedMantissa) (q : ℚ) : Prop :=
  ∃ r : ℚ, 0 ≤ r ∧ r < 1 / 2 ∧ (em.stickyBit ↔ r ≠ 0) ∧
    q = em.mantissa + ((if em.roundBit then 1 / 2 else 0) + r)

theorem represents_exact (m : ℕ) :
    Represents (.ofMantissaAndAccuracy m .exact) m :=
  ⟨0, le_rfl, by norm_num, by simp, by simp⟩

/-- The accuracy of a quotient that is cut off. -/
theorem represents_quotient {num den : ℕ} (hden : 0 < den) :
    Represents (.ofMantissaAndAccuracy (num / den) (accuracyOfFraction (num % den) den))
      ((num : ℚ) / den) := by
  have hpos : (0 : ℚ) < den := by exact_mod_cast hden
  rw [natCast_div_eq num hden, accuracyOfFraction]
  by_cases hzero : num % den = 0
  · rw [if_pos hzero, hzero, Nat.cast_zero, zero_div, add_zero]
    exact represents_exact _
  rw [if_neg hzero]
  have hzero' : ((num % den : ℕ) : ℚ) / den ≠ 0 :=
    div_ne_zero (by exact_mod_cast hzero) hpos.ne'
  cases h : compare (2 * (num % den)) den with
  | lt =>
    exact ⟨_, by positivity, div_lt_half hden h, iff_of_true rfl hzero', by simp⟩
  | eq =>
    rw [div_eq_half hden h]
    exact ⟨0, le_rfl, by norm_num, iff_of_false Bool.false_ne_true (not_not.2 rfl), by simp⟩
  | gt =>
    have hlt := mod_div_lt_one num hden
    have hgt := half_lt_div hden h
    exact ⟨(num % den : ℕ) / den - 1 / 2, by linarith, by linarith,
      iff_of_true rfl (by linarith), by simp⟩

/-- What a shift drops goes into the residual bits. -/
theorem Represents.shiftRightOne (h : Represents em q) : Represents em.shiftRightOne (q / 2) := by
  obtain ⟨r, hr0, hr1, hsticky, rfl⟩ := h
  have hmod : (em.mantissa : ℚ) = 2 * (em.mantissa / 2 : ℕ) + (em.mantissa % 2 : ℕ) := by
    exact_mod_cast (Nat.div_add_mod em.mantissa 2).symm
  -- The old round bit, now worth a quarter, is part of the new remainder.
  refine ⟨(if em.roundBit then 1 / 4 else 0) + r / 2, ?_, ?_, ?_, ?_⟩
  · split <;> linarith
  · split <;> linarith
  · simp only [ExtendedMantissa.shiftRightOne, Bool.or_eq_true, hsticky]
    cases em.roundBit with
    | false => simp
    | true => simp; linarith
  · rw [ExtendedMantissa.shiftRightOne, hmod]
    rcases Nat.mod_two_eq_zero_or_one em.mantissa with hm | hm <;> cases em.roundBit <;>
      simp [hm] <;> ring

theorem Represents.shiftRight (h : Represents em q) (n : ℕ) :
    Represents (em >>> n) (q / 2 ^ n) := by
  induction n with
  | zero => rwa [pow_zero, div_one]
  | succ n ih =>
    rw [pow_succ, ← div_div]
    exact ih.shiftRightOne

theorem Represents.mantissa_le (h : Represents em q) : (em.mantissa : ℚ) ≤ q := by
  obtain ⟨r, hr0, -, -, rfl⟩ := h
  have : (0 : ℚ) ≤ if em.roundBit then 1 / 2 else 0 := by split <;> norm_num
  linarith

theorem Represents.lt_mantissa_add_one (h : Represents em q) : q < em.mantissa + 1 := by
  obtain ⟨r, -, hr1, -, rfl⟩ := h
  have : (if em.roundBit then 1 / 2 else 0 : ℚ) ≤ 1 / 2 := by split <;> norm_num
  linarith

/-- The residual bits suffice to round. -/
theorem Represents.isNearest (h : Represents em q) : IsNearest q em.roundedMantissa := by
  obtain ⟨r, hr0, hr1, hsticky, rfl⟩ := h
  obtain ⟨m, round, sticky⟩ := em
  cases round <;> cases sticky
  case false.false | false.true =>
    simpa using IsNearest.of_lt_half hr0 hr1
  case true.false =>
    obtain rfl : r = 0 := by simpa using hsticky
    simpa using IsNearest.of_half
  case true.true =>
    have hr : r ≠ 0 := hsticky.1 rfl
    have : 0 < r := lt_of_le_of_ne hr0 hr.symm
    simpa using IsNearest.of_half_lt (n := m) (r := 1 / 2 + r) (by linarith) (by linarith)

end ResidualBits

/-! ## Rounding to 53 binary digits -/

/-- The mantissa has 53 binary digits. -/
def IsNormal (q : ℚ) : Prop := 2 ^ 52 ≤ q ∧ q < 2 ^ 53

/-- `m * 2 ^ e` is `v` rounded to a mantissa of 53 binary digits. The rounded mantissa may need one
digit more, and is then halved. -/
def IsRounded (v : ℚ) (m : ℕ) (e : ℤ) : Prop :=
  IsNormal m ∧ ∃ (q : ℚ) (n : ℕ) (d : ℤ),
    IsNormal q ∧ v = q * 2 ^ d ∧ IsNearest q n ∧ (m : ℚ) * 2 ^ e = n * 2 ^ d

/-- The mantissas of one exponent are below those of the next. -/
theorem zpow_le_of_lt (h : e < d) : (2 : ℚ) ^ 53 * 2 ^ e ≤ 2 ^ 52 * 2 ^ d := by
  calc (2 : ℚ) ^ 53 * 2 ^ e = 2 ^ 52 * 2 ^ (e + 1) := by rw [zpow_add_one₀ (by norm_num)]; ring
    _ ≤ 2 ^ 52 * 2 ^ d := by
      gcongr
      · norm_num
      · omega

theorem IsNormal.exponent_le {q' : ℚ} (h : IsNormal q) (h' : IsNormal q')
    (heq : q * 2 ^ d = q' * 2 ^ e) : d ≤ e := by
  by_contra hlt
  have hpos : (0 : ℚ) < 2 ^ e := by positivity
  have hle : 2 ^ 53 * (2 : ℚ) ^ e ≤ q * 2 ^ d :=
    (zpow_le_of_lt (not_le.1 hlt)).trans (by gcongr; exact h.1)
  have : q' * 2 ^ e < 2 ^ 53 * 2 ^ e := (mul_lt_mul_iff_left₀ hpos).2 h'.2
  linarith

/-- A number has one exponent with a mantissa of 53 binary digits. -/
theorem IsNormal.unique {q' : ℚ} (h : IsNormal q) (h' : IsNormal q')
    (heq : q * 2 ^ d = q' * 2 ^ e) : d = e ∧ q = q' := by
  obtain rfl : d = e := le_antisymm (h.exponent_le h' heq) (h'.exponent_le h heq.symm)
  exact ⟨rfl, mul_right_cancel₀ (by positivity) heq⟩

/-- Rounding has one result. -/
theorem IsRounded.unique {m' : ℕ} {e' : ℤ} (h : IsRounded v m e) (h' : IsRounded v m' e') :
    m = m' ∧ e = e' := by
  obtain ⟨hm, q, n, d, hq, rfl, hn, hvalue⟩ := h
  obtain ⟨hm', q', n', d', hq', heq, hn', hvalue'⟩ := h'
  obtain ⟨rfl, rfl⟩ := hq.unique hq' heq
  obtain rfl := hn.unique hn'
  obtain ⟨he, hmantissa⟩ := hm.unique hm' (hvalue.trans hvalue'.symm)
  exact ⟨by exact_mod_cast hmantissa, he⟩

/-- The error is half a unit of the last binary digit at most. -/
theorem IsRounded.abs_sub_le (h : IsRounded v m e) : |(m : ℚ) * 2 ^ e - v| * 2 ^ 53 ≤ v := by
  obtain ⟨-, q, n, d, hq, rfl, hn, hvalue⟩ := h
  have hpos : (0 : ℚ) < 2 ^ d := by positivity
  rw [hvalue, ← sub_mul, abs_mul, abs_of_pos hpos, abs_sub_comm]
  calc |q - n| * 2 ^ d * 2 ^ 53 ≤ 1 / 2 * 2 ^ d * 2 ^ 53 := by gcongr; exact hn.1
    _ = 2 ^ 52 * 2 ^ d := by ring
    _ ≤ q * 2 ^ d := by gcongr; exact hq.1

/-- What has 53 binary digits is not changed. -/
theorem isRounded_self (hm : IsNormal m) : IsRounded (m * 2 ^ e) m e :=
  ⟨hm, m, m, e, hm, rfl, .of_abs_lt (by norm_num), rfl⟩

/-- What is not below a number of 53 binary digits is not rounded below it. -/
theorem IsRounded.le_of_le (h : IsRounded v m e) (hn : IsNormal n) (hle : n * 2 ^ d ≤ v) :
    (n : ℚ) * 2 ^ d ≤ m * 2 ^ e := by
  obtain ⟨-, q, m', e', hq, rfl, hm', hvalue⟩ := h
  rw [hvalue]
  rcases lt_trichotomy d e' with hlt | rfl | hlt
  · have hlower : 2 ^ 52 ≤ m' := hm'.le_of_le (by exact_mod_cast hq.1)
    calc (n : ℚ) * 2 ^ d ≤ 2 ^ 53 * 2 ^ d := by gcongr; exact hn.2.le
      _ ≤ 2 ^ 52 * 2 ^ e' := zpow_le_of_lt hlt
      _ ≤ m' * 2 ^ e' := by gcongr; exact_mod_cast hlower
  · gcongr
    exact hm'.le_of_le (le_of_mul_le_mul_right hle (by positivity))
  · -- A larger exponent belongs to a larger number.
    refine absurd hle (not_le_of_gt ?_)
    calc q * 2 ^ e' < 2 ^ 53 * 2 ^ e' := by gcongr; exact hq.2
      _ ≤ 2 ^ 52 * 2 ^ d := zpow_le_of_lt hlt
      _ ≤ n * 2 ^ d := by gcongr; exact hn.1

/-- Only as many digits are dropped as there are more than 53. -/
theorem shiftToTargetExponent_eq (hm : 2 ^ 52 ≤ m) (he : -1074 ≤ e) :
    shiftToTargetExponent .binary64 m e acc =
      (ExtendedMantissa.ofMantissaAndAccuracy m acc >>> (m.log2 - 52), e + (m.log2 - 52 : ℕ)) := by
  have hlog : 52 ≤ m.log2 := (Nat.le_log2 (by omega)).2 hm
  have htarget : max (totalExponent m e - 53) (-1074) = e + (m.log2 - 52 : ℕ) := by
    rw [totalExponent]
    omega
  simp only [shiftToTargetExponent, shiftToExponent, targetExponent_binary64, htarget]
  rw [show (e + (m.log2 - 52 : ℕ) - e).toNat = m.log2 - 52 by omega]

theorem Represents.isNormal (h : Represents (.ofMantissaAndAccuracy m acc) q) (hm : 2 ^ 52 ≤ m) :
    IsNormal (q / 2 ^ (m.log2 - 52)) := by
  have hlog : 52 ≤ m.log2 := (Nat.le_log2 (by omega)).2 hm
  have hpos : (0 : ℚ) < 2 ^ (m.log2 - 52) := by positivity
  have hlower : (2 ^ 52 * 2 ^ (m.log2 - 52) : ℚ) ≤ m := by
    rw [← pow_add, Nat.add_sub_cancel' hlog]
    exact_mod_cast Nat.log2_self_le (by omega)
  have hupper : (m + 1 : ℚ) ≤ 2 ^ 53 * 2 ^ (m.log2 - 52) := by
    rw [← pow_add, show 53 + (m.log2 - 52) = m.log2 + 1 by omega]
    exact_mod_cast Nat.lt_log2_self
  have hle := h.mantissa_le
  have hlt := h.lt_mantissa_add_one
  rw [mantissa_ofMantissaAndAccuracy] at hle hlt
  exact ⟨(le_div_iff₀ hpos).2 (hlower.trans hle), (div_lt_iff₀ hpos).2 (hlt.trans_le hupper)⟩

/-- A rounded mantissa needs one digit more only if it is a power of two, and is then halved. -/
theorem shiftToTargetExponent_rounded (hlower : 2 ^ 52 ≤ n) (hupper : n ≤ 2 ^ 53) (he : -1074 ≤ e) :
    ∃ m d, (shiftToTargetExponent .binary64 n e .exact).1.mantissa = m ∧
      (shiftToTargetExponent .binary64 n e .exact).2 = d ∧ IsNormal m ∧
      (m : ℚ) * 2 ^ d = n * 2 ^ e := by
  rw [shiftToTargetExponent_eq hlower he]
  rcases hupper.lt_or_eq with hlt | rfl
  · have hlog : n.log2 = 52 := (Nat.log2_eq_iff (by omega)).2 ⟨hlower, hlt⟩
    rw [hlog]
    exact ⟨n, e, rfl, add_zero e, ⟨by exact_mod_cast hlower, by exact_mod_cast hlt⟩, rfl⟩
  · rw [Nat.log2_two_pow]
    refine ⟨2 ^ 52, e + 1, rfl, rfl, ⟨by norm_num, by norm_num⟩, ?_⟩
    rw [zpow_add_one₀ (by norm_num)]
    push_cast
    ring

/-- A mantissa of 53 digits or more is rounded as it should be. -/
theorem roundWithAccuracy_eq (sign : Sign) (h : Represents (.ofMantissaAndAccuracy m acc) q)
    (hm : 2 ^ 52 ≤ m) (he : -1074 ≤ e) :
    ∃ n d hn, roundWithAccuracy .binary64 sign m e acc = .finite sign n d hn ∧
      IsRounded (q * 2 ^ e) n d := by
  -- The first shift leaves 53 digits and is rounded, the second one is for a carry.
  have hnormal := h.isNormal hm
  have hnearest := (h.shiftRight (m.log2 - 52)).isNearest
  obtain ⟨n, d, hmantissa, hexponent, hn, hvalue⟩ :=
    shiftToTargetExponent_rounded (hnearest.le_of_le (by exact_mod_cast hnormal.1))
      (hnearest.le_of_lt (by exact_mod_cast hnormal.2)) (e := e + (m.log2 - 52 : ℕ)) (by omega)
  have hpos : 0 < n := by
    have : (0 : ℚ) < n := lt_of_lt_of_le (by norm_num) hn.1
    exact_mod_cast this
  refine ⟨n, d, hpos, ?_, hn, _, _, _, hnormal, ?_, hnearest, hvalue⟩
  · simp only [roundWithAccuracy, shiftToTargetExponent_eq hm he, hmantissa, hexponent]
    rw [dif_neg hpos.ne']
  · rw [zpow_add₀ (by norm_num), zpow_natCast]
    field_simp

/-- A mantissa with fewer digits is rounded after enough zeros have been put behind it. -/
theorem exists_round_eq (sign : Sign) (hm : 0 < m) (he : -1074 ≤ e - (52 - m.log2 : ℕ)) :
    ∃ n d hn, round .binary64 sign m e = .finite sign n d hn ∧ IsRounded (m * 2 ^ e) n d := by
  have htarget : (e - max (totalExponent m e - 53) (-1074)).toNat = 52 - m.log2 := by
    rw [totalExponent]
    omega
  have hlarge : 2 ^ 52 ≤ m <<< (52 - m.log2) := by
    rw [Nat.shiftLeft_eq]
    calc 2 ^ 52 ≤ 2 ^ (m.log2 + (52 - m.log2)) := Nat.pow_le_pow_right (by decide) (by omega)
      _ = 2 ^ m.log2 * 2 ^ (52 - m.log2) := pow_add _ _ _
      _ ≤ m * 2 ^ (52 - m.log2) := Nat.mul_le_mul_right _ (Nat.log2_self_le hm.ne')
  obtain ⟨n, d, hn, hround, hrounded⟩ :=
    roundWithAccuracy_eq sign (represents_exact _) hlarge he
  refine ⟨n, d, hn, ?_, ?_⟩
  · simp only [UnpackedFloat.round, decreaseExponent, targetExponent_binary64, htarget]
    exact hround
  · have hvalue : ((m <<< (52 - m.log2) : ℕ) : ℚ) * 2 ^ (e - (52 - m.log2 : ℕ)) = m * 2 ^ e := by
      rw [Nat.shiftLeft_eq, zpow_sub₀ (by norm_num), zpow_natCast]
      push_cast
      field_simp
    rwa [hvalue] at hrounded

/-! ## Packing -/

/-- The first of 53 binary digits is not stored, and is put back. -/
theorem toNat_one_append (b : BitVec 52) : (1#1 ++ b).toNat = 2 ^ 52 + b.toNat := by
  rw [BitVec.toNat_append, ← Nat.shiftLeft_add_eq_or_of_lt b.isLt]
  rfl

theorem toNat_append_ofNat (hlower : 2 ^ 52 ≤ m) (hupper : m < 2 ^ 53) :
    (1#1 ++ BitVec.ofNat 52 m).toNat = m := by
  rw [toNat_one_append, BitVec.toNat_ofNat]
  omega

/-- An exponent field that is neither all zeros nor all ones belongs to a mantissa of 53 digits. -/
theorem unpack_packComponents {sign : Sign} {b : ℕ} (hb : 1 ≤ b) (hb' : b ≤ 2046)
    (hlower : 2 ^ 52 ≤ m) (hupper : m < 2 ^ 53) (hpos : 0 < m) :
    UnpackedFloat.unpack .binary64
      (packComponents .binary64 sign (BitVec.ofNat 11 b) (BitVec.ofNat 52 m)) =
        .finite sign m (b - (1023 + 52 : ℕ)) hpos := by
  have hexponent : (BitVec.ofNat 11 b).toNat = b := by
    rw [BitVec.toNat_ofNat]
    omega
  have hne (c : BitVec 11) (hc : b ≠ c.toNat) : BitVec.ofNat 11 b ≠ c := fun heq =>
    hc (hexponent.symm.trans (congrArg BitVec.toNat heq))
  have hones : BitVec.ofNat 11 b ≠ -1#11 := hne _ (by norm_num; omega)
  have hzero : BitVec.ofNat 11 b ≠ 0#11 := hne _ (by norm_num; omega)
  simp only [UnpackedFloat.unpack, unpackMantissa_packComponents, unpackExponent_packComponents,
    unpackSign_packComponents, Sign.ofBitVec_toBitVec, hones, hzero, if_false,
    toNat_append_ofNat hlower hupper, hexponent]
  congr 1

/-- Packing loses nothing of a mantissa with 53 digits and an exponent in range. -/
theorem unpack_pack_finite {sign : Sign} (hm : IsNormal m) (hlower : -1074 ≤ e) (hupper : e ≤ 971)
    (hpos : 0 < m) :
    (Float.Model.pack (.finite sign m e hpos)).unpack = .finite sign m e hpos := by
  have hm52 : 2 ^ 52 ≤ m := by exact_mod_cast hm.1
  have hm53 : m < 2 ^ 53 := by exact_mod_cast hm.2
  have hlog : m.log2 + 1 = Format.binary64.mantissaBits := by
    rw [(Nat.log2_eq_iff hpos.ne').2 ⟨hm52, hm53⟩]
    rfl
  obtain ⟨b, hb⟩ : ∃ b : ℕ, e + (1023 : ℕ) + (52 : ℕ) = b := ⟨(e + 1023 + 52).toNat, by omega⟩
  have hpack : UnpackedFloat.pack .binary64 (.finite sign m e hpos) =
      packComponents .binary64 sign (BitVec.ofNat 11 b) (BitVec.ofNat 52 m) := by
    simp only [UnpackedFloat.pack, exponentBias_binary64, hb, Int.toNat_natCast]
    rw [if_neg (by omega), if_pos hlog]
  rw [Float.Model.unpack, Float.Model.pack]
  simp only [hpack]
  rw [unpack_packComponents (by omega) (by omega) hm52 hm53 hpos]
  congr 1
  omega

/-- Exponents that are too large are packed as infinity. -/
theorem unpack_pack_overflow {sign : Sign} (he : 971 < e) (hpos : 0 < m) :
    (Float.Model.pack (.finite sign m e hpos)).unpack = .infinity sign := by
  have hpack : UnpackedFloat.pack .binary64 (.finite sign m e hpos) =
      packedInfinity .binary64 sign := by
    have hbias := exponentBias_binary64
    simp only [UnpackedFloat.pack]
    rw [if_pos]
    omega
  rw [Float.Model.unpack, Float.Model.pack]
  simp only [hpack]
  cases sign <;> rfl

/-- A number that is taken apart and put together again is the same. -/
theorem ofModel_pack_unpack (x : Float) : Float.ofModel (.pack x.toModel.unpack) = x := by
  obtain ⟨⟨bits, hvalid⟩⟩ := x
  -- The one NaN that is put together is the only one that a number can be.
  simp only [Float.Model.pack, Float.Model.unpack, pack_unpack_of_valid hvalid]

/-! ## Rounded numbers -/

/-- `x` is the positive number `v`, rounded. -/
def IsRounding (x : Float) (v : ℚ) : Prop :=
  ∃ m e hm, x = .ofModel (.pack (.finite .positive m e hm)) ∧ IsRounded v m e

theorem IsRounding.unique {x y : Float} (h : IsRounding x v) (h' : IsRounding y v) : x = y := by
  obtain ⟨m, e, hm, rfl, hrounded⟩ := h
  obtain ⟨m', e', hm', rfl, hrounded'⟩ := h'
  obtain ⟨rfl, rfl⟩ := hrounded.unique hrounded'
  rfl

end Calculator
