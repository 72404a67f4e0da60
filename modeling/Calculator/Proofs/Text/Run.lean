import Calculator.Text

/-!
# Names and numerals

A name is a run of letters, and a numeral is a run of digits, perhaps with a point and a second
run behind it. No character has two meanings: blanks, digits and letters are three classes without
a common member.

* `length_le_takeWhile`: a run at the beginning of a text lies within the longest one.
* `IsNumeral.length_le_or`: how far a numeral at the beginning of a text can reach.
* `isBlank_of_isDigit`, `isBlank_of_isLetter`, `isDigit_of_isLetter`: the classes are disjoint.
* `trim_of_isName`: a name has no blanks at its ends.
-/

namespace Calculator.Text

/-! ## Runs -/

/-- A name: letters, and at least one. -/
def IsName (s : List Char) : Prop := s ≠ [] ∧ ∀ c ∈ s, isLetter c

instance (s : List Char) : Decidable (IsName s) :=
  decidable_of_iff (s ≠ [] ∧ s.all isLetter) (and_congr_right fun _ => List.all_eq_true)

/-- Digits, and at least one. -/
def IsDigits (s : List Char) : Prop := s ≠ [] ∧ ∀ c ∈ s, isDigit c

instance (s : List Char) : Decidable (IsDigits s) :=
  decidable_of_iff (s ≠ [] ∧ s.all isDigit) (and_congr_right fun _ => List.all_eq_true)

/-- An unsigned numeral: digits, perhaps with a point and more digits behind it. -/
inductive IsNumeral : List Char → Prop where
  | whole {s : List Char} (hs : IsDigits s) : IsNumeral s
  | decimal {s t : List Char} (hs : IsDigits s) (ht : IsDigits t) : IsNumeral (s ++ '.' :: t)

theorem isName_takeWhile {s : List Char} (h : s.takeWhile isLetter ≠ []) :
    IsName (s.takeWhile isLetter) :=
  ⟨h, List.all_eq_true.1 List.all_takeWhile⟩

theorem isDigits_takeWhile {s : List Char} (h : s.takeWhile isDigit ≠ []) :
    IsDigits (s.takeWhile isDigit) :=
  ⟨h, List.all_eq_true.1 List.all_takeWhile⟩

theorem takeWhile_of_isName {s : List Char} (h : IsName s) (rest : List Char) :
    (s ++ rest).takeWhile isLetter = s ++ rest.takeWhile isLetter :=
  List.takeWhile_append_of_pos h.2

theorem dropWhile_of_isName {s : List Char} (h : IsName s) (rest : List Char) :
    (s ++ rest).dropWhile isLetter = rest.dropWhile isLetter :=
  List.dropWhile_append_of_pos h.2

/-- A run that a text begins with is part of the longest one. -/
theorem length_le_takeWhile {p : Char → Bool} {s t : List Char} (hs : ∀ c ∈ s, p c)
    (h : s <+: t) : s.length ≤ (t.takeWhile p).length := by
  obtain ⟨u, rfl⟩ := h
  rw [List.takeWhile_append_of_pos hs, List.length_append]
  exact Nat.le_add_right _ _

/-- What a text begins with goes on where a shorter part of the text ends. -/
theorem exists_eq_append_cons {s t rest : List Char} (h : t <+: s ++ rest)
    (hlength : s.length < t.length) : ∃ c u, t = s ++ c :: u ∧ c ∈ rest.head? := by
  obtain ⟨u, rfl⟩ :=
    List.prefix_of_prefix_length_le (List.prefix_append s rest) h (Nat.le_of_lt hlength)
  rw [List.prefix_append_right_inj] at h
  obtain ⟨v, rfl⟩ := h
  cases u with
  | nil => exact absurd hlength (by simp)
  | cons c u => exact ⟨c, u, rfl, rfl⟩

theorem takeWhile_ne_nil {p : Char → Bool} {c : Char} (hc : p c) (s : List Char) :
    (c :: s).takeWhile p ≠ [] := by
  rw [List.takeWhile_cons_of_pos hc]
  exact List.cons_ne_nil _ _

theorem IsNumeral.ne_nil {s : List Char} (h : IsNumeral s) : s ≠ [] := by
  cases h with
  | whole hs => exact hs.1
  | decimal hs ht => exact List.append_ne_nil_of_left_ne_nil hs.1 _

/-- A numeral begins with a digit. -/
theorem IsNumeral.isDigit_head {c : Char} {s : List Char} (h : IsNumeral (c :: s)) : isDigit c := by
  generalize heq : c :: s = t at h
  cases h with
  | whole hs => exact hs.2 c (heq ▸ List.mem_cons_self)
  | @decimal u v hs ht =>
    cases u with
    | nil => exact absurd rfl hs.1
    | cons d u =>
      rw [List.cons_append, List.cons.injEq] at heq
      exact hs.2 c (heq.1 ▸ List.mem_cons_self)

theorem IsNumeral.isDigit_of_mem {c : Char} {s : List Char} (h : IsNumeral s) (hc : c ∈ s) :
    isDigit c ∨ c = '.' := by
  cases h with
  | whole hs => exact Or.inl (hs.2 c hc)
  | decimal hs ht =>
    rcases List.mem_append.1 hc with hc | hc
    · exact Or.inl (hs.2 c hc)
    · rcases List.mem_cons.1 hc with rfl | hc
      · exact Or.inr rfl
      · exact Or.inl (ht.2 c hc)

/-- The point of a decimal numeral ends the first run of digits. -/
theorem takeWhile_of_point {s : List Char} (h : IsDigits s) (rest : List Char) :
    (s ++ '.' :: rest).takeWhile isDigit = s ∧
      (s ++ '.' :: rest).dropWhile isDigit = '.' :: rest := by
  rw [List.takeWhile_append_of_pos h.2, List.dropWhile_append_of_pos h.2]
  exact ⟨List.append_nil s, rfl⟩

/-- A numeral at the beginning of a text lies within the first run of digits, or within two runs
with a point between them. -/
theorem IsNumeral.length_le_or {s t : List Char} (ht : IsNumeral t) (h : t <+: s) :
    t.length ≤ (s.takeWhile isDigit).length ∨
      ∃ d rest, s.dropWhile isDigit = '.' :: d :: rest ∧ isDigit d ∧
        t.length ≤ (s.takeWhile isDigit).length + 1 + ((d :: rest).takeWhile isDigit).length := by
  cases ht with
  | whole ht => exact Or.inl (length_le_takeWhile ht.2 h)
  | @decimal u v hu hv =>
    obtain ⟨w, rfl⟩ := h
    obtain ⟨d, v, rfl⟩ := List.exists_cons_of_ne_nil hv.1
    rw [List.append_assoc, List.cons_append]
    obtain ⟨htake, hdrop⟩ := takeWhile_of_point hu (d :: v ++ w)
    have hfraction := length_le_takeWhile hv.2 (List.prefix_append (d :: v) w)
    refine Or.inr ⟨d, v ++ w, hdrop, hv.2 d List.mem_cons_self, ?_⟩
    rw [htake, List.length_append, List.length_cons]
    rw [List.cons_append] at hfraction
    omega

theorem IsDigits.concat {c : Char} {s : List Char} (h : IsDigits s) (hc : isDigit c) :
    IsDigits (s ++ [c]) :=
  ⟨by simp, List.forall_mem_append.2 ⟨h.2, by simpa using hc⟩⟩

theorem IsNumeral.concat {c : Char} {s : List Char} (h : IsNumeral s) (hc : isDigit c) :
    IsNumeral (s ++ [c]) := by
  cases h with
  | whole hs => exact .whole (hs.concat hc)
  | decimal hs ht =>
    rw [List.append_assoc, List.cons_append]
    exact .decimal hs (ht.concat hc)

theorem IsName.concat {c : Char} {s : List Char} (h : IsName s) (hc : isLetter c) :
    IsName (s ++ [c]) :=
  ⟨by simp, List.forall_mem_append.2 ⟨h.2, by simpa using hc⟩⟩

/-! ## Classes of characters -/

theorem isDigit_iff {c : Char} : isDigit c ↔ 48 ≤ c.toNat ∧ c.toNat ≤ 57 := by
  simp only [isDigit, Bool.and_eq_true, decide_eq_true_eq]
  exact Iff.rfl

theorem isLetter_iff {c : Char} : isLetter c ↔ 97 ≤ c.toNat ∧ c.toNat ≤ 122 := by
  simp only [isLetter, Bool.and_eq_true, decide_eq_true_eq]
  exact Iff.rfl

theorem toNat_of_isBlank {c : Char} (h : isBlank c) : c.toNat ≤ 32 := by
  simp only [isBlank, Bool.or_eq_true, Bool.and_eq_true, decide_eq_true_eq] at h
  rcases h with rfl | h
  · decide
  · omega

@[simp] theorem isBlank_of_isDigit {c : Char} (h : isDigit c) : isBlank c = false := by
  rw [isDigit_iff] at h
  rw [← Bool.not_eq_true]
  intro hblank
  have := toNat_of_isBlank hblank
  omega

@[simp] theorem isBlank_of_isLetter {c : Char} (h : isLetter c) : isBlank c = false := by
  rw [isLetter_iff] at h
  rw [← Bool.not_eq_true]
  intro hblank
  have := toNat_of_isBlank hblank
  omega

@[simp] theorem isDigit_of_isLetter {c : Char} (h : isLetter c) : isDigit c = false := by
  rw [isLetter_iff] at h
  rw [← Bool.not_eq_true, isDigit_iff]
  omega

/-! ## Names without blanks -/

@[simp] theorem dropBlanks_of_head {c : Char} (h : isBlank c = false) (s : List Char) :
    dropBlanks (c :: s) = c :: s :=
  List.dropWhile_cons_of_neg (by simp [h])

theorem dropBlanks_of_forall {s : List Char} (h : ∀ c ∈ s, isBlank c = false) :
    dropBlanks s = s := by
  cases s with
  | nil => rfl
  | cons c s => simp [h c List.mem_cons_self]

theorem trim_of_isName {s : List Char} (h : IsName s) : trim s = s := by
  have hs : ∀ c ∈ s, isBlank c = false := fun c hc => isBlank_of_isLetter (h.2 c hc)
  have hr : ∀ c ∈ s.reverse, isBlank c = false := fun c hc => hs c (List.mem_reverse.1 hc)
  rw [trim, dropBlanks_of_forall hs, dropBlanks_of_forall hr, List.reverse_reverse]

end Calculator.Text
