import Calculator.Decimal.Display
import Calculator.Decimal.Numeral
import Calculator.Proofs.Decimal.Nearest
import Calculator.Proofs.Text.Run
import Mathlib.Data.List.TakeWhile
import Mathlib.Tactic.FieldSimp

/-!
# Numerals and the numbers that they denote

A numeral denotes a rational number: what its digits before the point stand for, and the fraction
that its digits behind the point stand for. Zeros at the end of a fraction do not change it, nor do
zeros that are written in front of a number to fill the places behind a point.

* `Denotes.value_ofNumeral`: a numeral is read as the number that it denotes.
* `readNumeral_of_isNumeral`: so it makes no difference to it that other texts can be read as well.
* `denotes_positional`: what is written without an exponent denotes the number meant.
-/

namespace Calculator

open Text Display

variable {s t : List Char} {c : Char} {n places : ℕ} {q : ℚ}

/-- What digits behind a point stand for. -/
def fractionValue (t : List Char) : ℚ := (Nat.ofDigitChars 10 t 0 : ℕ) / 10 ^ t.length

/-- The text is an unsigned numeral, digits and perhaps a point with more digits behind it, and this
is the number that it denotes. -/
inductive Denotes : List Char → ℚ → Prop where
  | whole {s : List Char} (hs : IsDigits s) : Denotes s (Nat.ofDigitChars 10 s 0 : ℕ)
  | decimal {s t : List Char} (hs : IsDigits s) (ht : IsDigits t) :
    Denotes (s ++ '.' :: t) ((Nat.ofDigitChars 10 s 0 : ℕ) + fractionValue t)

/-! ## Reading -/

theorem takeWhile_of_isDigits (hs : IsDigits s) : s.takeWhile isDigit = s :=
  List.takeWhile_eq_self_iff.2 hs.2

theorem dropWhile_of_isDigits (hs : IsDigits s) : s.dropWhile isDigit = [] :=
  List.dropWhile_eq_nil_iff.2 hs.2

/-- The rational number that a decimal fraction is. -/
def Decimal.value (d : Decimal) : ℚ := d.coefficient / 10 ^ d.places

theorem value_ofNumeral_whole (hs : IsDigits s) :
    (Decimal.ofNumeral s).value = (Nat.ofDigitChars 10 s 0 : ℕ) := by
  simp only [Decimal.value, Decimal.ofNumeral, Numeral.wholeDigits, Numeral.fractionDigits,
    takeWhile_of_isDigits hs, dropWhile_of_isDigits hs, List.append_nil, List.length_nil, pow_zero,
    div_one]

theorem value_ofNumeral_decimal (hs : IsDigits s) (ht : IsDigits t) :
    (Decimal.ofNumeral (s ++ '.' :: t)).value =
      (Nat.ofDigitChars 10 s 0 : ℕ) + fractionValue t := by
  obtain ⟨htake, hdrop⟩ := takeWhile_of_point hs t
  simp only [Decimal.value, Decimal.ofNumeral, Numeral.wholeDigits, Numeral.fractionDigits, htake,
    hdrop, takeWhile_of_isDigits ht, fractionValue]
  rw [Nat.ofDigitChars_append, Nat.ofDigitChars_eq_ofDigitChars_zero]
  push_cast
  field_simp

theorem Denotes.isNumeral (h : Denotes s q) : IsNumeral s := by
  cases h with
  | whole hs => exact .whole hs
  | decimal hs ht => exact .decimal hs ht

/-- A numeral is read as the number that it denotes. -/
theorem Denotes.value_ofNumeral (h : Denotes s q) : (Decimal.ofNumeral s).value = q := by
  cases h with
  | whole hs => exact value_ofNumeral_whole hs
  | decimal hs ht => exact value_ofNumeral_decimal hs ht

/-! ## Numerals among the texts of any form -/

theorem toLower_of_lt (h : c.toNat < 65) : c.toLower = c := by
  refine dif_neg ?_
  rintro ⟨hupper, -⟩
  have hle : 65 ≤ c.toNat := UInt32.le_iff_toNat_le.1 hupper
  omega

/-- A numeral holds no letters, nor other characters from `A` on. -/
theorem toNat_lt_of_mem (h : IsNumeral s) (hc : c ∈ s) : 46 ≤ c.toNat ∧ c.toNat < 65 := by
  rcases h.isDigit_of_mem hc with hdigit | rfl
  · rw [isDigit_iff] at hdigit
    omega
  · decide

theorem untilNull_of_isNumeral (h : IsNumeral s) : untilNull s = s := by
  refine List.takeWhile_eq_self_iff.2 fun c hc => ?_
  have hlower := (toNat_lt_of_mem h hc).1
  refine decide_eq_true ?_
  rintro rfl
  exact absurd hlower (by decide)

/-- A numeral takes up the whole text, so that no exponent follows. -/
theorem decimal?_of_isNumeral (h : IsNumeral s) :
    Numeral.decimal? s = some (Decimal.ofNumeral s).toFloat := by
  have hparts : Numeral.hasDigits isDigit s ∧ Numeral.behindDigits isDigit s = [] := by
    cases h with
    | whole hs =>
      simp [Numeral.hasDigits, Numeral.wholeDigits, Numeral.behindDigits, takeWhile_of_isDigits hs,
        dropWhile_of_isDigits hs, hs.1]
    | @decimal s t hs ht =>
      obtain ⟨htake, hdrop⟩ := takeWhile_of_point hs t
      simp [Numeral.hasDigits, Numeral.wholeDigits, Numeral.behindDigits, htake, hdrop,
        dropWhile_of_isDigits ht, hs.1]
  rw [Numeral.decimal?, if_pos hparts.1, hparts.2, Numeral.exponent, Decimal.toFloat]

/-- A numeral is no word, and no hexadecimal number. -/
theorem unsigned?_of_isNumeral (h : IsNumeral s) :
    Numeral.unsigned? s = Numeral.decimal? s := by
  have hlower : ∀ c ∈ s, c.toLower = c ∧ c.toNat < 65 := fun c hc =>
    ⟨toLower_of_lt (toNat_lt_of_mem h hc).2, (toNat_lt_of_mem h hc).2⟩
  have hword : ∀ (c : Char) (word : List Char), 65 ≤ c.toNat →
      (s.take 3).map Char.toLower ≠ c :: word := by
    intro c word hletter hword
    have hc : c ∈ (s.take 3).map Char.toLower := hword ▸ List.mem_cons_self
    obtain ⟨d, hd, rfl⟩ := List.mem_map.1 hc
    obtain ⟨heq, hlt⟩ := hlower d (List.mem_of_mem_take hd)
    rw [heq] at hletter
    omega
  simp only [Numeral.unsigned?, if_neg (hword 'i' ['n', 'f'] (by decide)),
    if_neg (hword 'n' ['a', 'n'] (by decide))]
  split
  · next x r =>
    obtain ⟨heq, hlt⟩ := hlower x (by simp)
    rw [heq]
    have hne : x ≠ 'x' := by
      rintro rfl
      exact absurd hlt (by decide)
    rw [if_neg (by simp [hne])]
  · rfl

/-- The number of a numeral is that of the decimal fraction. -/
theorem readNumeral_of_isNumeral {text : String} (h : IsNumeral text.toList) :
    readNumeral text = (Decimal.ofNumeral text.toList).toFloat := by
  obtain ⟨c, s, hs⟩ := List.exists_cons_of_ne_nil h.ne_nil
  have hhead : isDigit c := IsNumeral.isDigit_head (hs ▸ h)
  have hread := (unsigned?_of_isNumeral h).trans (decimal?_of_isNumeral h)
  rw [readNumeral, untilNull_of_isNumeral h]
  rw [hs] at hread ⊢
  rw [dropBlanks_of_head (isBlank_of_isDigit hhead)]
  split
  · next heq =>
    cases heq
    cases hhead
  · next heq =>
    cases heq
    cases hhead
  · rw [hread, Option.getD_some]

/-! ## Writing -/

theorem isDigit_of_mem_toDigits (h : c ∈ Nat.toDigits 10 n) : isDigit c :=
  Nat.isDigit_of_mem_toDigits (by decide) (by decide) h

theorem isDigits_toDigits (n : ℕ) : IsDigits (Nat.toDigits 10 n) :=
  ⟨Nat.toDigits_ne_nil, fun _ => isDigit_of_mem_toDigits⟩

theorem isDigit_of_mem_padded (h : c ∈ padded places n) : isDigit c := by
  rw [padded, List.leftpad, List.mem_append] at h
  rcases h with h | h
  · rw [List.eq_of_mem_replicate h]
    rfl
  · exact isDigit_of_mem_toDigits h

theorem fractionValue_padded (h : n < 10 ^ places) :
    fractionValue (padded places n) = n / 10 ^ places := by
  rcases Nat.eq_zero_or_pos places with rfl | hpos
  · -- Zero has one digit, though no place is asked for.
    obtain rfl : n = 0 := by omega
    have hzero : padded 0 0 = ['0'] := rfl
    rw [hzero, fractionValue]
    simp [Nat.ofDigitChars_cons]
  · have hlength : (padded places n).length = places := by
      rw [padded, List.length_leftpad]
      exact max_eq_left ((Nat.length_toDigits_le_iff (by decide) hpos).2 h)
    rw [fractionValue, hlength, padded, List.leftpad, Nat.ofDigitChars_append,
      Nat.ofDigitChars_replicate_zero, mul_zero, Nat.ofDigitChars_ten_toDigits]

/-- Nothing but zeros is dropped. -/
theorem exists_eq_dropTrailingZeros (t : List Char) :
    ∃ k, t = dropTrailingZeros t ++ List.replicate k '0' := by
  have hzeros : ∀ c ∈ t.reverse.takeWhile (· = '0'), c = '0' := fun c hc => by
    simpa using List.mem_takeWhile_imp hc
  refine ⟨(t.reverse.takeWhile (· = '0')).length, ?_⟩
  rw [dropTrailingZeros, ← List.reverse_replicate, ← List.eq_replicate_of_mem hzeros,
    ← List.reverse_append, List.takeWhile_append_dropWhile, List.reverse_reverse]

theorem fractionValue_dropTrailingZeros (t : List Char) :
    fractionValue (dropTrailingZeros t) = fractionValue t := by
  obtain ⟨k, hk⟩ := exists_eq_dropTrailingZeros t
  conv_rhs => rw [hk]
  rw [fractionValue, fractionValue, Nat.ofDigitChars_append, Nat.ofDigitChars_replicate_zero,
    List.length_append, List.length_replicate, pow_add]
  push_cast
  field_simp

/-- The number stays the same without the zeros at the end, and without the point if nothing
remains behind it. -/
theorem denotes_withPoint (hs : IsDigits s) (ht : ∀ c ∈ t, isDigit c) :
    Denotes (withPoint s t) ((Nat.ofDigitChars 10 s 0 : ℕ) + fractionValue t) := by
  rw [← fractionValue_dropTrailingZeros, withPoint]
  split
  case h_1 heq =>
    rw [heq, fractionValue, Nat.ofDigitChars_nil, Nat.cast_zero, zero_div, add_zero]
    exact .whole hs
  case h_2 hne =>
    obtain ⟨k, hk⟩ := exists_eq_dropTrailingZeros t
    have hdigits : IsDigits (dropTrailingZeros t) :=
      ⟨hne, fun c hc => ht c (by rw [hk]; exact List.mem_append_left _ hc)⟩
    exact .decimal hs hdigits

/-- What is written without an exponent denotes the number meant. -/
theorem denotes_positional (n places : ℕ) : Denotes (positional n places) (n / 10 ^ places) := by
  have hpos : 0 < Nat.pow 10 places := Nat.pow_pos (by decide)
  have hdenotes := denotes_withPoint (isDigits_toDigits (n / Nat.pow 10 places))
    (t := padded places (n % Nat.pow 10 places)) fun _ => isDigit_of_mem_padded
  rw [Nat.ofDigitChars_ten_toDigits, Nat.pow_eq, fractionValue_padded (Nat.mod_lt n hpos)]
    at hdenotes
  have hvalue : (n : ℚ) / 10 ^ places =
      (n / 10 ^ places : ℕ) + (n % 10 ^ places : ℕ) / 10 ^ places := by
    exact_mod_cast natCast_div_eq n hpos
  rw [hvalue]
  exact hdenotes

end Calculator
