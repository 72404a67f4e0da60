import Calculator.Arithmetic.Factorial
import Calculator.Proofs.Binary64.Natural

/-!
# Products of successive naturals

The product of the naturals from two on, each multiplication rounded: how close it is to the
factorial, and from where on it is infinite.

* `one_le_product`, `product_le_product`: it is at least one, and does not fall.
* `exists_size_product`: as long as it is finite, it is close to the factorial.
* `isFinite_product_iff`, `isInf_product_iff`: the factor 171 makes it infinite.
* `product_factors`: so the factors past that one do not matter.
-/

namespace Calculator

variable {m n : ℕ}

/-! ## From one factor to the next -/

theorem product_range'_succ (n : ℕ) :
    product (List.range' 2 (n + 1)) = product (List.range' 2 n) * Float.ofNat (n + 2) := by
  rw [product, List.range'_concat, List.foldl_concat, one_mul, Nat.add_comm 2 n]
  rfl

theorem one_le_product (n : ℕ) : 1 ≤ product (List.range' 2 n) := by
  induction n with
  | zero => exact le_refl_of_nonneg nonneg_one
  | succ n ih =>
    rw [product_range'_succ]
    exact le_trans_of_nonneg nonneg_one ih (le_mul ih (one_le_ofNat (by omega)))

theorem nonneg_product (n : ℕ) : 0 ≤ product (List.range' 2 n) :=
  nonneg_of_one_le (one_le_product n)

/-- More factors do not make the product smaller. -/
theorem product_le_product (h : m ≤ n) :
    product (List.range' 2 m) ≤ product (List.range' 2 n) := by
  induction n, h using Nat.le_induction with
  | base => exact le_refl_of_nonneg (nonneg_product m)
  | succ n _ ih =>
    rw [product_range'_succ]
    exact le_trans_of_nonneg (nonneg_product m) ih
      (le_mul (one_le_product n) (one_le_ofNat (by omega)))

/-! ## Where the product overflows -/

theorem factorial_mul_lt (h : n ≤ 169) :
    ((n + 1).factorial : ℚ) * (1 + 1 / 2 ^ 53) ^ n < 2 ^ (1024 : ℤ) := by
  have hfactorial : ((n + 1).factorial : ℚ) ≤ (170).factorial := by
    exact_mod_cast Nat.factorial_le (by omega)
  have hpow : (1 + 1 / 2 ^ 53 : ℚ) ^ n ≤ 2 := by
    calc (1 + 1 / 2 ^ 53 : ℚ) ^ n ≤ (1 + 1 / 2 ^ 53) ^ 169 := pow_le_pow_right₀ (by norm_num) h
      _ ≤ 2 := by norm_num
  have hlt : Nat.factorial 170 * 2 < 2 ^ 1024 := by decide +kernel
  calc ((n + 1).factorial : ℚ) * (1 + 1 / 2 ^ 53) ^ n ≤ (170).factorial * 2 := by gcongr
    _ < 2 ^ (1024 : ℤ) := by
      rw [zpow_ofNat]
      exact_mod_cast hlt

theorem factorial_mul_pow_succ (n : ℕ) (c : ℚ) : ((n + 2).factorial : ℚ) * c ^ (n + 1) =
    (n + 1).factorial * c ^ n * (n + 2 : ℕ) * c := by
  rw [Nat.factorial_succ]
  push_cast
  ring

/-- One more factor, rounded. -/
theorem isRounding_product_succ {s : ℚ} (hn : n ≤ 169)
    (hs : size? (product (List.range' 2 n)) = some (s : WithTop ℚ)) :
    IsRounding (product (List.range' 2 (n + 1))) (s * (n + 2 : ℕ)) ∧ 1 ≤ s * (n + 2 : ℕ) := by
  have hone : (1 : ℚ) ≤ s := by
    exact_mod_cast (one_le_iff (nonneg_product n) hs).1 (one_le_product n)
  have hfactor : (1 : ℚ) ≤ (n + 2 : ℕ) := by exact_mod_cast Nat.succ_pos _
  rw [product_range'_succ]
  exact ⟨isRounding_mul (one_le_product n) (one_le_ofNat (Nat.succ_pos _)) hs
    (size?_ofNat (Nat.succ_pos _) (by omega)), one_le_mul_of_one_le_of_one_le hone hfactor⟩

/-- Up to the factor 170 the product is finite, and its size is close to the factorial. -/
theorem exists_size_product (h : n ≤ 169) : ∃ s : ℚ,
    size? (product (List.range' 2 n)) = some (s : WithTop ℚ) ∧
      (n + 1).factorial * (1 - 1 / 2 ^ 53) ^ n ≤ s ∧
      s ≤ (n + 1).factorial * (1 + 1 / 2 ^ 53) ^ n := by
  induction n with
  | zero => exact ⟨1, size?_one, by norm_num, by norm_num⟩
  | succ n ih =>
    obtain ⟨s, hs, hlower, hupper⟩ := ih (by omega)
    obtain ⟨hround, hone⟩ := isRounding_product_succ (by omega) hs
    have habove : s * (n + 2 : ℕ) * (1 + 1 / 2 ^ 53) ≤
        ((n + 2).factorial : ℚ) * (1 + 1 / 2 ^ 53) ^ (n + 1) := by
      rw [factorial_mul_pow_succ]
      gcongr
    have hbelow : ((n + 2).factorial : ℚ) * (1 - 1 / 2 ^ 53) ^ (n + 1) ≤
        s * (n + 2 : ℕ) * (1 - 1 / 2 ^ 53) := by
      rw [factorial_mul_pow_succ]
      gcongr
    obtain ⟨r, hr, hlower', hupper'⟩ :=
      hround.exists_size hone (habove.trans_lt (factorial_mul_lt h))
    exact ⟨r, hr, hbelow.trans hlower', hupper'.trans habove⟩

/-- The factor 171 makes the product infinite. -/
theorem size?_product_overflow : size? (product (List.range' 2 170)) = some ⊤ := by
  obtain ⟨s, hs, hlower, -⟩ := exists_size_product le_rfl
  obtain ⟨hround, hone⟩ := isRounding_product_succ le_rfl hs
  have hpow : (1 / 2 : ℚ) ≤ (1 - 1 / 2 ^ 53) ^ 170 := by norm_num
  have hle : 2 ^ 1024 * 2 ≤ Nat.factorial 171 := by decide +kernel
  refine hround.size_eq_top hone ?_
  calc (2 : ℚ) ^ (1024 : ℤ) ≤ (171).factorial * (1 / 2) := by
        rw [zpow_ofNat, mul_one_div, le_div_iff₀ (by norm_num)]
        exact_mod_cast hle
    _ ≤ (171).factorial * (1 - 1 / 2 ^ 53) ^ 170 := by gcongr
    _ = (170).factorial * (1 - 1 / 2 ^ 53) ^ 169 * (171 : ℕ) * (1 - 1 / 2 ^ 53) :=
        factorial_mul_pow_succ 169 _
    _ ≤ s * (171 : ℕ) * (1 - 1 / 2 ^ 53) := by
        gcongr

theorem size?_product_of_le (h : 170 ≤ n) : size? (product (List.range' 2 n)) = some ⊤ := by
  obtain ⟨v, hv, -⟩ := exists_isNonneg (nonneg_product n)
  have hle := product_le_product h
  rw [le_iff_size_le (nonneg_product 170) (nonneg_product n) size?_product_overflow hv] at hle
  rw [hv, top_le_iff.1 hle]

/-- Once the product is infinite, no further factor matters. -/
theorem product_eq_of_le (h : 170 ≤ n) :
    product (List.range' 2 n) = product (List.range' 2 170) :=
  eq_of_size_eq_top (nonneg_product n) (nonneg_product 170) (size?_product_of_le h)
    size?_product_overflow

theorem size?_product_eq_top_iff : size? (product (List.range' 2 n)) = some ⊤ ↔ 170 ≤ n := by
  refine ⟨fun h => ?_, size?_product_of_le⟩
  by_contra hlt
  obtain ⟨s, hs, -⟩ := exists_size_product (n := n) (by omega)
  rw [hs] at h
  cases h

theorem isFinite_product_iff : (product (List.range' 2 n)).isFinite ↔ n ≤ 169 := by
  rw [isFinite_iff (nonneg_product n), ne_eq, size?_product_eq_top_iff]
  omega

theorem isInf_product_iff : (product (List.range' 2 n)).isInf ↔ 170 ≤ n := by
  rw [isInf_iff (nonneg_product n), size?_product_eq_top_iff]

/-- The factors that are left out do not matter. -/
theorem product_factors (n : ℕ) : product (factors n) = product (List.range' 2 (n - 1)) := by
  rw [factors, overflowingFactorial]
  rcases Nat.lt_or_ge 171 n with h | h
  · rw [Nat.min_eq_right h.le, product_eq_of_le (n := n - 1) (by omega)]
  · rw [Nat.min_eq_left h]

end Calculator
