import Calculator.Proofs.Arithmetic.Product

/-!
# The factorial as a loop

The factorial of a whole number can be computed by a loop that counts in binary64 and multiplies,
until the counter has passed the number or the product is infinite. The counter would stand still
at 53 binary digits, but the product is infinite after 170 turns, so the loop ends, for infinity as
well. For NaN, for fractions and for numbers below zero there is no such product.

* `lt_zero_or_isFractional_or_hasFactors`: the three kinds of numbers.
* `Progress.exists_endsIn`: the loop ends after at most 170 turns, whatever the number.
* `Progress.EndsIn.eq_product`: for a whole number it ends with the product of its factors.
* `HasFactors.product_factors_le`: the factorial does not fall.
* `factorial_cases`: the factorial of every number.
-/

namespace Calculator

variable {x y r : Float} {m n i turns : ℕ} {q : ℚ}

/-! ## Fractions and whole numbers -/

/-- NaN, and the numbers above zero that are not whole. -/
def IsFractional (x : Float) : Prop :=
  x.isNaN ∨ 0 < x ∧ ∃ q : ℚ, size? x = some (q : WithTop ℚ) ∧ ∀ n : ℕ, q ≠ n

theorem exists_magnitude_of_size (h : size? x = some (q : WithTop ℚ)) :
    ∃ num den : ℕ, magnitude x = .ratio num den ∧ 0 < den ∧ (num : ℚ) / den = q := by
  rw [size?] at h
  cases hx : magnitude x with
  | ratio num den =>
    rw [hx, Magnitude.value?, Option.some.injEq, WithTop.coe_inj] at h
    exact ⟨num, den, rfl, den_pos_of_magnitude hx, h⟩
  | infinite | undefined => rw [hx] at h; cases h

theorem magnitude_of_size_eq_top (h : size? x = some ⊤) : magnitude x = .infinite := by
  rw [size?] at h
  cases hx : magnitude x with
  | infinite => rfl
  | ratio | undefined => rw [hx] at h; cases h

theorem factorial_of_lt_zero (h : x < 0) : factorial x = .ok (-1) := by
  rw [factorial, if_pos h]

theorem factorial_of_natCast (hx : 0 ≤ x) (hn : size? x = some ((n : ℚ) : WithTop ℚ)) :
    factorial x = .ok (product (factors n)) := by
  obtain ⟨num, den, hmagnitude, hden, hvalue⟩ := exists_magnitude_of_size hn
  have hnum : num = n * den := by
    rw [div_eq_iff (by exact_mod_cast hden.ne')] at hvalue
    exact_mod_cast hvalue
  rw [factorial, if_neg (not_lt_zero_of_nonneg hx), hmagnitude]
  simp only [hnum, Nat.mul_mod_left, if_true, Nat.mul_div_cancel n hden]

theorem factorial_of_isFractional (h : IsFractional x) :
    factorial x = .error .fractionalFactorial := by
  rcases h with hnan | ⟨hpos, q, hq, hwhole⟩
  · have hlt : ¬x < 0 := by
      rw [lt_iff_compare, unpack_of_isNaN hnan]
      rintro ⟨⟩
    rw [factorial, if_neg hlt, magnitude_of_isNaN hnan]
  · obtain ⟨num, den, hmagnitude, hden, hvalue⟩ := exists_magnitude_of_size hq
    have hrest : num % den ≠ 0 := by
      intro hzero
      refine hwhole (num / den) ?_
      rw [← hvalue, Nat.cast_div (Nat.dvd_of_mod_eq_zero hzero) (by exact_mod_cast hden.ne')]
    rw [factorial, if_neg (not_lt_zero_of_nonneg (nonneg_of_pos hpos)), hmagnitude]
    exact if_neg hrest

/-- The factorial of the number has the factors up to the given one. -/
structure HasFactors (x : Float) (n : ℕ) : Prop where
  nonneg : 0 ≤ x
  factorial_eq : factorial x = .ok (product (factors n))
  le_iff : ∀ k, 0 < k → k ≤ overflowingFactorial → (Float.ofNat k ≤ x ↔ k ≤ n)

theorem hasFactors_of_natCast (hx : 0 ≤ x) (hn : size? x = some ((n : ℚ) : WithTop ℚ)) :
    HasFactors x n where
  nonneg := hx
  factorial_eq := factorial_of_natCast hx hn
  le_iff k hpos hle := by
    rw [overflowingFactorial] at hle
    rw [le_iff_size_le (nonneg_of_one_le (one_le_ofNat hpos)) hx (size?_ofNat hpos (by omega)) hn]
    norm_cast

theorem hasFactors_of_infinite (hx : 0 ≤ x) (h : size? x = some ⊤) :
    HasFactors x overflowingFactorial where
  nonneg := hx
  factorial_eq := by
    rw [factorial, if_neg (not_lt_zero_of_nonneg hx), magnitude_of_size_eq_top h]
  le_iff k hpos hle := by
    refine iff_of_true ?_ hle
    rw [overflowingFactorial] at hle
    rw [le_iff_size_le (nonneg_of_one_le (one_le_ofNat hpos)) hx (size?_ofNat hpos (by omega)) h]
    exact le_top

theorem lt_zero_or_isFractional_or_hasFactors (x : Float) :
    x < 0 ∨ IsFractional x ∨ ∃ n, HasFactors x n := by
  by_cases hnan : x.isNaN
  · exact .inr (.inl (.inl hnan))
  obtain hneg | hx := lt_zero_or_nonneg hnan
  · exact .inl hneg
  obtain ⟨v, hv, -⟩ := exists_isNonneg hx
  cases v using WithTop.recTopCoe with
  | top => exact .inr (.inr ⟨_, hasFactors_of_infinite hx hv⟩)
  | coe q =>
    by_cases hwhole : ∃ n : ℕ, q = n
    · obtain ⟨n, rfl⟩ := hwhole
      exact .inr (.inr ⟨n, hasFactors_of_natCast hx hv⟩)
    · rw [not_exists] at hwhole
      have hne : (q : WithTop ℚ) ≠ 0 := by exact_mod_cast hwhole 0
      exact .inr (.inl (.inr ⟨(zero_lt_iff hx hv).2 hne, q, hv, hwhole⟩))

theorem HasFactors.isInf_iff (h : HasFactors x n) :
    (product (factors n)).isInf ↔ (171 : Float) ≤ x := by
  rw [product_factors, isInf_product_iff]
  have := h.le_iff 171 (by decide) le_rfl
  exact Iff.trans (by omega) this.symm

/-- A larger number has more factors, as far as they matter. -/
theorem HasFactors.product_factors_le (hx : HasFactors x m) (hy : HasFactors y n) (h : x ≤ y) :
    product (factors m) ≤ product (factors n) := by
  refine product_le_product (Nat.sub_le_sub_right ?_ 1)
  rcases Nat.eq_zero_or_pos (min m overflowingFactorial) with hzero | hpos
  · exact hzero ▸ Nat.zero_le _
  have hlast := (hx.le_iff _ hpos (Nat.min_le_right _ _)).2 (Nat.min_le_left _ _)
  have hle := le_trans_of_nonneg (nonneg_of_one_le (one_le_ofNat hpos)) hlast h
  exact le_min ((hy.le_iff _ hpos (Nat.min_le_right _ _)).1 hle) (Nat.min_le_right _ _)

/-! ## The loop -/

/-- The next factor, and the product of those before it. -/
structure Progress where
  factor : Float
  product : Float

namespace Progress

/-- Before the first turn. -/
def start : Progress := ⟨2, 1⟩

/-- After one more turn. -/
def next (p : Progress) : Progress := ⟨p.factor + 1, p.product * p.factor⟩

/-- After some turns. -/
def after : ℕ → Progress
  | 0 => start
  | i + 1 => (after i).next

/-- There is one more turn. -/
def Continues (x : Float) (p : Progress) : Prop := p.factor ≤ x ∧ p.product.isFinite

/-- The loop ends after some more turns, each of them a multiplication, with a product. -/
inductive EndsIn (x : Float) : Progress → ℕ → Float → Prop
  | done {p : Progress} (h : ¬p.Continues x) : EndsIn x p 0 p.product
  | turn {p : Progress} {turns : ℕ} {r : Float} (h : p.Continues x)
    (hrest : EndsIn x p.next turns r) : EndsIn x p (turns + 1) r

/-- The counter is exact for as long as the product is finite, and much longer. -/
theorem after_eq (h : i ≤ 2 ^ 52) :
    after i = ⟨Float.ofNat (i + 2), Calculator.product (List.range' 2 i)⟩ := by
  induction i with
  | zero => rfl
  | succ i ih =>
    rw [after, ih (by omega), next, product_range'_succ, ofNat_add_one (by omega) (by omega)]

theorem not_continues_after (x : Float) : ¬(after 170).Continues x := by
  rw [Continues, after_eq (by norm_num), isFinite_product_iff]
  omega

theorem continues_after_iff (hx : HasFactors x n) (hi : i ≤ 170) :
    (after i).Continues x ↔ i < (factors n).length := by
  have hlength : (factors n).length = min n 171 - 1 := List.length_range'
  obtain rfl | hlt := hi.eq_or_lt
  · exact iff_of_false (not_continues_after x) (by omega)
  · rw [Continues, after_eq (by omega), isFinite_product_iff, hlength,
      hx.le_iff (i + 2) (by omega) (Nat.add_le_add_right hlt 1)]
    omega

/-- By the 170th turn, the product is infinite. -/
theorem exists_endsIn_after (x : Float) (hi : i ≤ 170) :
    ∃ turns r, EndsIn x (after i) turns r ∧ i + turns ≤ 170 := by
  induction hi using Nat.decreasingInduction with
  | self => exact ⟨0, _, .done (not_continues_after x), le_rfl⟩
  | of_succ i hi ih =>
    by_cases h : (after i).Continues x
    · obtain ⟨turns, r, hrest, hle⟩ := ih
      exact ⟨turns + 1, r, .turn h hrest, by omega⟩
    · exact ⟨0, _, .done h, hi.le⟩

theorem exists_endsIn (x : Float) : ∃ turns r, EndsIn x start turns r ∧ turns ≤ 170 := by
  obtain ⟨turns, r, h, hle⟩ := exists_endsIn_after x (Nat.zero_le 170)
  exact ⟨turns, r, h, by omega⟩

/-- What is left to do after some turns. -/
theorem EndsIn.eq_product_after {p : Progress} (h : EndsIn x p turns r) (hx : HasFactors x n)
    (hi : i ≤ (factors n).length) (hp : p = after i) :
    i + turns = (factors n).length ∧ r = Calculator.product (factors n) := by
  have hbound := factors_length_le n
  induction h generalizing i with
  | @done p hstop =>
    rw [hp, continues_after_iff hx (hi.trans hbound)] at hstop
    have hlength : i = (factors n).length := by omega
    refine ⟨hlength, ?_⟩
    rw [hp, after_eq (by omega), hlength, factors, List.length_range']
  | @turn p turns r hmore _ ih =>
    rw [hp, continues_after_iff hx (hi.trans hbound)] at hmore
    obtain ⟨hturns, hr⟩ := ih hmore (by rw [hp, after])
    exact ⟨by omega, hr⟩

/-- For a whole number, the loop multiplies its factors. -/
theorem EndsIn.eq_product (h : EndsIn x start turns r) (hx : HasFactors x n) :
    turns = (factors n).length ∧ r = Calculator.product (factors n) := by
  obtain ⟨hturns, hr⟩ := h.eq_product_after hx (Nat.zero_le _) rfl
  exact ⟨by omega, hr⟩

end Progress

/-! ## The factorial of every number -/

theorem factorial_eq_error_iff {f : Fault} :
    factorial x = .error f ↔ f = .fractionalFactorial ∧ IsFractional x := by
  refine ⟨fun h => ?_, fun ⟨hf, hx⟩ => hf ▸ factorial_of_isFractional hx⟩
  obtain hx | hx | ⟨n, hx⟩ := lt_zero_or_isFractional_or_hasFactors x
  · rw [factorial_of_lt_zero hx] at h
    cases h
  · rw [factorial_of_isFractional hx] at h
    cases h
    exact ⟨rfl, hx⟩
  · rw [hx.factorial_eq] at h
    cases h

theorem factorial_eq_neg_one_iff : factorial x = .ok (-1) ↔ x < 0 := by
  refine ⟨fun h => ?_, factorial_of_lt_zero⟩
  obtain hx | hx | ⟨n, hx⟩ := lt_zero_or_isFractional_or_hasFactors x
  · exact hx
  · rw [factorial_of_isFractional hx] at h
    cases h
  · rw [hx.factorial_eq, Except.ok.injEq, product_factors] at h
    have hone := one_le_product (n - 1)
    rw [h] at hone
    exact absurd hone (by decide)

theorem exists_hasFactors_of_ok (hx : 0 ≤ x) (h : factorial x = .ok r) :
    ∃ n, HasFactors x n ∧ product (factors n) = r := by
  obtain hneg | hfractional | ⟨n, hn⟩ := lt_zero_or_isFractional_or_hasFactors x
  · exact absurd hneg (not_lt_zero_of_nonneg hx)
  · rw [factorial_of_isFractional hfractional] at h
    cases h
  · exact ⟨n, hn, Except.ok.inj (hn.factorial_eq.symm.trans h)⟩

/-- The loop ends after at most 170 multiplications, for every number. The factorial of a number
below zero is minus one, fractions included; other fractions and NaN have none. That of any further
number is the product that the loop ends with, by as many factors as the loop takes turns. It is the
product of the naturals from two on if the number is a natural, it is at least one, it is infinite
from 171 on, and it does not fall as the number grows. -/
theorem factorial_cases (x : Float) :
    (∀ f, factorial x = .error f ↔ f = .fractionalFactorial ∧ IsFractional x) ∧
    Fault.fractionalFactorial.kind = .arithmetic ∧
    (factorial x = .ok (-1) ↔ x < 0) ∧
    ∃ turns r, Progress.EndsIn x .start turns r ∧ turns ≤ 170 ∧
      (¬x < 0 → ¬IsFractional x → factorial x = .ok r ∧
        (∃ n, r = product (factors n) ∧ turns = (factors n).length) ∧
        (∀ n : ℕ, size? x = some ((n : ℚ) : WithTop ℚ) → r = product (List.range' 2 (n - 1))) ∧
        1 ≤ r ∧ (r.isInf ↔ 171 ≤ x) ∧ ∀ y s, x ≤ y → factorial y = .ok s → r ≤ s) := by
  obtain ⟨turns, r, hends, hturns⟩ := Progress.exists_endsIn x
  refine ⟨fun f => factorial_eq_error_iff, rfl, factorial_eq_neg_one_iff, turns, r, hends, hturns,
    fun hneg hfractional => ?_⟩
  obtain ⟨m, hx⟩ : ∃ m, HasFactors x m :=
    ((lt_zero_or_isFractional_or_hasFactors x).resolve_left hneg).resolve_left hfractional
  obtain ⟨hlength, rfl⟩ := hends.eq_product hx
  refine ⟨hx.factorial_eq, ⟨m, rfl, hlength⟩, fun n hn => ?_, ?_, hx.isInf_iff,
    fun y s hle hs => ?_⟩
  · rw [← product_factors]
    exact Except.ok.inj (hx.factorial_eq.symm.trans (factorial_of_natCast hx.nonneg hn))
  · rw [product_factors]
    exact one_le_product _
  · obtain ⟨n, hy, rfl⟩ := exists_hasFactors_of_ok (nonneg_of_le hx.nonneg hle) hs
    exact hx.product_factors_le hy hle

example : factorial (-0.5) = .ok (-1) := by decide +kernel

end Calculator
