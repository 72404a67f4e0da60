import Calculator.Proofs.Text.Run
import Calculator.Session

/-!
# What kind of line a text is

A line without an equals sign is a query. A line with one is a definition, and the first equals
sign divides it: both parts lose the blanks at their ends. The left part of a definition can be
stored under if it is a name, or a name with `(x)` behind it.

* `Line.ofText_eq_query_iff`, `Line.ofText_eq_definition_iff`: the two kinds of lines.
* `Target.ofText?_eq_number_iff`, `Target.ofText?_eq_function_iff`: the two kinds of left sides.
-/

namespace Calculator

/-! ## Blanks at the ends -/

namespace Text

/-- The text without the blanks at its end. -/
def dropTrailing (s : List Char) : List Char := (dropBlanks s.reverse).reverse

theorem trim_eq (s : List Char) : trim s = dropTrailing (dropBlanks s) := rfl

@[simp] theorem dropTrailing_dropTrailing (s : List Char) :
    dropTrailing (dropTrailing s) = dropTrailing s := by
  unfold dropTrailing
  simp

theorem dropBlanks_append_cons {c : Char} (hc : isBlank c = false) (left right : List Char) :
    dropBlanks (left ++ c :: right) = dropBlanks left ++ c :: right := by
  induction left with
  | nil => exact List.dropWhile_cons_of_neg (Bool.not_eq_true _ ▸ hc)
  | cons a left ih =>
    unfold dropBlanks at ih ⊢
    rw [List.cons_append, List.dropWhile_cons, List.dropWhile_cons]
    split
    · exact ih
    · rfl

theorem dropTrailing_append_cons {c : Char} (hc : isBlank c = false) (left right : List Char) :
    dropTrailing (left ++ c :: right) = left ++ c :: dropTrailing right := by
  unfold dropTrailing
  rw [List.reverse_append, List.reverse_cons, List.append_assoc, List.singleton_append,
    dropBlanks_append_cons hc, List.reverse_append, List.reverse_cons, List.reverse_reverse,
    List.append_assoc, List.singleton_append]

theorem dropBlanks_eq_nil {s : List Char} (h : ∀ c ∈ s, isBlank c) : dropBlanks s = [] := by
  unfold dropBlanks
  rw [← List.append_nil s, List.dropWhile_append_of_pos h, List.dropWhile_nil]

/-- The blanks can be dropped at the two ends in either order. -/
theorem dropTrailing_dropBlanks (s : List Char) :
    dropTrailing (dropBlanks s) = dropBlanks (dropTrailing s) := by
  by_cases h : ∀ c ∈ s, isBlank c
  · have hreverse : dropBlanks s.reverse = [] :=
      dropBlanks_eq_nil fun c hc => h c (List.mem_reverse.1 hc)
    unfold dropTrailing
    rw [dropBlanks_eq_nil h, hreverse]
    rfl
  · simp only [Classical.not_forall, Bool.not_eq_true] at h
    obtain ⟨c, hmem, hc⟩ := h
    obtain ⟨left, right, rfl⟩ := List.append_of_mem hmem
    rw [dropBlanks_append_cons hc, dropTrailing_append_cons hc, dropTrailing_append_cons hc,
      dropBlanks_append_cons hc]

@[simp] theorem trim_dropBlanks (s : List Char) : trim (dropBlanks s) = trim s := by
  simp [trim_eq]

@[simp] theorem trim_dropTrailing (s : List Char) : trim (dropTrailing s) = trim s := by
  simp [trim_eq, ← dropTrailing_dropBlanks]

theorem trim_append_cons {c : Char} (hc : isBlank c = false) (left right : List Char) :
    trim (left ++ c :: right) = dropBlanks left ++ c :: dropTrailing right := by
  rw [trim_eq, dropBlanks_append_cons hc, dropTrailing_append_cons hc]

theorem mem_of_mem_dropBlanks {c : Char} {s : List Char} (h : c ∈ dropBlanks s) : c ∈ s :=
  (List.dropWhile_sublist isBlank).subset h

theorem mem_of_mem_trim {c : Char} {s : List Char} (h : c ∈ trim s) : c ∈ s := by
  unfold trim at h
  exact mem_of_mem_dropBlanks (List.mem_reverse.1 (mem_of_mem_dropBlanks (List.mem_reverse.1 h)))

end Text

open Text

/-! ## Lines -/

namespace Line

theorem ofText_of_not_mem {text : String} (h : '=' ∉ text.toList) :
    ofText text = .query (String.ofList (trim text.toList)) := by
  have hdrop : (trim text.toList).dropWhile (· ≠ '=') = [] := by
    have hkept : ∀ c ∈ trim text.toList, decide (c ≠ '=') = true := by
      intro c hc
      exact decide_eq_true fun hsign => h (hsign ▸ mem_of_mem_trim hc)
    rw [← List.append_nil (trim text.toList), List.dropWhile_append_of_pos hkept,
      List.dropWhile_nil]
  unfold ofText
  simp only [hdrop]

theorem ofText_of_append {text : String} {left right : List Char}
    (htext : text.toList = left ++ '=' :: right) (hleft : '=' ∉ left) :
    ofText text =
      .definition (String.ofList (trim left)) (String.ofList (trim right)) := by
  have hkept : ∀ c ∈ dropBlanks left, decide (c ≠ '=') = true := by
    intro c hc
    exact decide_eq_true fun hsign => hleft (hsign ▸ mem_of_mem_dropBlanks hc)
  have htrim : trim text.toList = dropBlanks left ++ '=' :: dropTrailing right := by
    rw [htext, trim_append_cons (by decide)]
  have hdrop : (trim text.toList).dropWhile (· ≠ '=') = '=' :: dropTrailing right := by
    rw [htrim, List.dropWhile_append_of_pos hkept]
    rfl
  have htake : (trim text.toList).takeWhile (· ≠ '=') = dropBlanks left := by
    rw [htrim, List.takeWhile_append_of_pos hkept]
    exact List.append_nil _
  unfold ofText
  simp only [hdrop, htake, trim_dropBlanks, trim_dropTrailing]

/-- A line is a query exactly if it has no equals sign. -/
theorem ofText_eq_query_iff {text query : String} :
    ofText text = .query query ↔
      '=' ∉ text.toList ∧ query = String.ofList (trim text.toList) := by
  by_cases h : '=' ∈ text.toList
  · obtain ⟨left, right, htext, hleft⟩ := List.eq_append_cons_of_mem h
    rw [ofText_of_append htext hleft]
    simp [h]
  · rw [ofText_of_not_mem h]
    simp [h, eq_comm]

/-- A line is a definition exactly if it has an equals sign, and then the first of them divides
it. -/
theorem ofText_eq_definition_iff {text l r : String} :
    ofText text = .definition l r ↔
      ∃ left right, text.toList = left ++ '=' :: right ∧ '=' ∉ left ∧
        l = String.ofList (trim left) ∧ r = String.ofList (trim right) := by
  constructor
  · intro h
    by_cases hsign : '=' ∈ text.toList
    · obtain ⟨left, right, htext, hleft⟩ := List.eq_append_cons_of_mem hsign
      rw [ofText_of_append htext hleft] at h
      cases h
      exact ⟨left, right, htext, hleft, rfl, rfl⟩
    · rw [ofText_of_not_mem hsign] at h
      cases h
  · rintro ⟨left, right, htext, hleft, rfl, rfl⟩
    exact ofText_of_append htext hleft

end Line

/-! ## Left sides -/

namespace Target

theorem ofText?_eq_number_iff {text name : String} :
    ofText? text = some (.number name) ↔ text = name ∧ IsName name.toList := by
  constructor
  · intro h
    unfold ofText? at h
    simp only at h
    split at h
    · cases h
    · next hne =>
      split at h
      · next hdrop =>
        cases h
        have hsplit := List.takeWhile_append_dropWhile (p := isLetter) (l := text.toList)
        rw [hdrop, List.append_nil] at hsplit
        refine ⟨?_, ?_⟩
        · rw [hsplit, String.ofList_toList]
        · rw [String.toList_ofList]
          exact isName_takeWhile hne
      · cases h
      · cases h
  · rintro ⟨rfl, hname⟩
    have htake := takeWhile_of_isName hname []
    have hdrop := dropWhile_of_isName hname []
    rw [List.append_nil, List.takeWhile_nil, List.append_nil] at htake
    rw [List.append_nil, List.dropWhile_nil] at hdrop
    unfold ofText?
    simp [htake, hdrop, hname.1]

@[simp] theorem toList_withArgument (name : String) :
    (name ++ "(x)").toList = name.toList ++ ['(', 'x', ')'] :=
  String.toList_append

theorem ofText?_eq_function_iff {text name : String} :
    ofText? text = some (.function name) ↔ text = name ++ "(x)" ∧ IsName name.toList := by
  constructor
  · intro h
    unfold ofText? at h
    simp only at h
    split at h
    · cases h
    · next hne =>
      split at h
      · cases h
      · next hdrop =>
        cases h
        have hsplit := List.takeWhile_append_dropWhile (p := isLetter) (l := text.toList)
        rw [hdrop] at hsplit
        refine ⟨?_, ?_⟩
        · rw [← String.toList_inj, toList_withArgument, String.toList_ofList, hsplit]
        · rw [String.toList_ofList]
          exact isName_takeWhile hne
      · cases h
  · rintro ⟨rfl, hname⟩
    have htake := takeWhile_of_isName hname ['(', 'x', ')']
    have hdrop := dropWhile_of_isName hname ['(', 'x', ')']
    have hstop : ['(', 'x', ')'].takeWhile isLetter = [] := by decide
    have hrest : ['(', 'x', ')'].dropWhile isLetter = ['(', 'x', ')'] := by decide
    rw [hstop, List.append_nil] at htake
    rw [hrest] at hdrop
    unfold ofText?
    simp [htake, hdrop, hname.1]

end Target

end Calculator
