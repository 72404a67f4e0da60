import Calculator.Proofs.Session.Transition

/-!
# The last two results of a session

A query that succeeds makes its answer the last result, and the last result the one before it. No
other line writes to the two variables, unless it is a definition of one of them. So after any lines
without such a definition they hold the last two answers to queries, however many lines have failed
or defined something else in between.

* `Assigns`: the lines that give a variable a value, and `Unassigned`: the lines among which none
  does.
* `queryResults`: the answers of the queries that succeeded.
* `Remembers.run`, `Remembers.after`: what one line, and what many lines, leave of the two results.
* `after_lastResults`: the two results in a session.
-/

namespace Calculator

open Text

/-- The left side of a definition. -/
def Line.left? : Line → Option String
  | query _ => none
  | definition left _ => some left

/-- The left side of a line is what stands before its first equals sign, without the blanks at the
ends. -/
theorem Line.left?_ofText_eq_some_iff {text l : String} :
    (ofText text).left? = some l ↔
      ∃ left right, text.toList = left ++ '=' :: right ∧ '=' ∉ left ∧ trim left = l.toList := by
  constructor
  · intro h
    cases hline : ofText text with
    | query =>
      rw [hline] at h
      cases h
    | definition l' r =>
      rw [hline] at h
      cases h
      obtain ⟨left, right, hparts, hleft, rfl, _⟩ := ofText_eq_definition_iff.1 hline
      exact ⟨left, right, hparts, hleft, String.toList_ofList.symm⟩
  · rintro ⟨left, right, hparts, hleft, htrim⟩
    rw [ofText_of_append hparts hleft, htrim, String.ofList_toList]
    rfl

namespace SymbolTable

variable {t : SymbolTable} {line name : String}

/-! ## Lines that give a variable a value -/

/-- The line gives the variable a value: the name stands before the first equals sign, perhaps
between blanks, and the line does not fail. -/
def Assigns (t : SymbolTable) (line name : String) : Prop :=
  (∃ left right, line.toList = left ++ '=' :: right ∧ '=' ∉ left ∧ trim left = name.toList) ∧
    ∃ answer, (t.run line).1 = .ok answer

/-- None of the lines, put to the table one after the other, gives the variable a value. -/
def Unassigned (t : SymbolTable) (name : String) : List String → Prop
  | [] => True
  | line :: lines => ¬t.Assigns line name ∧ (t.run line).2.Unassigned name lines

theorem exists_answer_iff {answer : Except Fault Float} :
    (∃ value, answer = .ok value) ↔ answer.isOk := by
  cases answer <;> simp [Except.isOk, Except.toBool]

theorem assigns_iff :
    t.Assigns line name ↔ (Line.ofText line).left? = some name ∧ (t.run line).1.isOk := by
  rw [Line.left?_ofText_eq_some_iff, ← exists_answer_iff]
  rfl

instance : Decidable (t.Assigns line name) := decidable_of_iff _ assigns_iff.symm

instance decidableUnassigned (t : SymbolTable) (name : String) :
    (lines : List String) → Decidable (t.Unassigned name lines)
  | [] => isTrue trivial
  | line :: lines =>
    have := decidableUnassigned (t.run line).2 name lines
    inferInstanceAs (Decidable (_ ∧ _))

/-! ## The answers to queries -/

/-- The answers of the queries that succeed, among some lines put to the table one after the
other. -/
def queryResults (t : SymbolTable) : List String → List Float
  | [] => []
  | line :: lines =>
    match (t.run line).1 with
    | .error _ => (t.run line).2.queryResults lines
    | .ok answer =>
      if '=' ∈ line.toList then (t.run line).2.queryResults lines
      else answer :: (t.run line).2.queryResults lines

/-! ## The last two results -/

/-- The last result is `last`, the one before it is `before`, and both may change. -/
structure Remembers (t : SymbolTable) (before last : Float) : Prop where
  last_eq : t.vars.find? lastResult = some ⟨lastResult, last, false⟩
  before_eq : t.vars.find? resultBeforeLast = some ⟨resultBeforeLast, before, false⟩

variable {t' : SymbolTable} {before last answer : Float}

theorem Remembers.congr (h : t.Remembers before last)
    (hlast : t'.vars.find? lastResult = t.vars.find? lastResult)
    (hbefore : t'.vars.find? resultBeforeLast = t.vars.find? resultBeforeLast) :
    t'.Remembers before last :=
  ⟨hlast.trans h.last_eq, hbefore.trans h.before_eq⟩

/-- A query writes the two results one after the other, the last one second. -/
theorem Remembers.recorded {t₁ t₂ : SymbolTable}
    (hbefore : t.write (.setVariable resultBeforeLast last) = .ok t₁)
    (hresult : t₁.write (.setVariable lastResult answer) = .ok t₂) : t₂.Remembers last answer := by
  have hne : resultBeforeLast ≠ lastResult := by decide
  constructor
  · rw [find?_of_putVariable hresult, if_pos rfl]
  · rw [find?_of_putVariable hresult, if_neg hne, find?_of_putVariable hbefore, if_pos rfl]

/-- One line. -/
theorem Remembers.run (h : t.Remembers before last) (hlast : ¬t.Assigns line lastResult)
    (hbefore : ¬t.Assigns line resultBeforeLast) :
    (∀ f, (t.run line).1 = .error f → (t.run line).2.Remembers before last) ∧
    ∀ answer, (t.run line).1 = .ok answer →
      if '=' ∈ line.toList then (t.run line).2.Remembers before last
      else (t.run line).2.Remembers last answer := by
  refine ⟨?_, ?_⟩
  · intro f hf
    have hnames : resultBeforeLast ∈ t.vars.names := IsOpen.mem_names ⟨before, h.before_eq⟩
    have hhalf : ¬t.HalfFinal := not_halfFinal_of_isOpen ⟨last, h.last_eq⟩
    rwa [run_error_unchanged hnames (fun hquery => hhalf hquery.1) hf]
  · intro answer hanswer
    have houtcome := run_outcome t line
    rw [hanswer] at houtcome
    generalize (t.run line).2 = t' at houtcome ⊢
    cases houtcome with
    | recorded text result last' t₁ _ hline hvalue hlast' hbefore' hresult =>
      rw [h.last_eq, Option.some.injEq] at hlast'
      rw [if_neg (Line.ofText_eq_query_iff.1 hline).1]
      rw [← hlast'] at hbefore'
      exact .recorded hbefore' hresult
    | variableDefined left right name value _ hline hleft hright hwrite =>
      obtain ⟨rfl, _⟩ := Target.ofText?_eq_number_iff.1 hleft
      have hassigns : t.Assigns line left := by
        rw [assigns_iff, hline, hanswer]
        exact ⟨rfl, rfl⟩
      have hsign : '=' ∈ line.toList := by
        obtain ⟨⟨front, back, hparts, _⟩, _⟩ := hassigns
        simp [hparts]
      rw [if_pos hsign]
      have hneLast : lastResult ≠ left := fun heq => hlast (heq ▸ hassigns)
      have hneBefore : resultBeforeLast ≠ left := fun heq => hbefore (heq ▸ hassigns)
      apply h.congr
      · rw [find?_of_putVariable hwrite, if_neg hneLast]
      · rw [find?_of_putVariable hwrite, if_neg hneBefore]
    | functionDefined left right name body _ hline hleft hright hwrite =>
      obtain ⟨front, back, hparts, _⟩ := Line.ofText_eq_definition_iff.1 hline
      rw [if_pos (by simp [hparts])]
      have hvars := vars_of_putFunction hwrite
      exact h.congr (by rw [hvars]) (by rw [hvars])

/-- Many lines, by induction: what comes out of the first is where the others begin. -/
theorem Remembers.after (lines : List String) (h : t.Remembers before last)
    (hlast : t.Unassigned lastResult lines) (hbefore : t.Unassigned resultBeforeLast lines) :
    (t.after lines).Remembers ((last :: t.queryResults lines).dropLast.getLast?.getD before)
      ((t.queryResults lines).getLast?.getD last) := by
  induction lines generalizing t before last with
  | nil => exact h
  | cons line lines ih =>
    obtain ⟨herror, hok⟩ := h.run hlast.1 hbefore.1
    unfold queryResults
    cases hanswer : (t.run line).1 with
    | error f => exact ih (herror f hanswer) hlast.2 hbefore.2
    | ok answer =>
      have hrun := hok answer hanswer
      simp only
      by_cases hsign : '=' ∈ line.toList
      · rw [if_pos hsign] at hrun ⊢
        exact ih hrun hlast.2 hbefore.2
      · rw [if_neg hsign] at hrun ⊢
        have hrest := ih hrun hlast.2 hbefore.2
        simp only [List.dropLast_cons_cons, List.getLast?_cons, Option.getD_some]
        exact hrest

/-- After any lines of which none gives a value to either of the last two results, these are the
answers of the last two queries that succeeded, and zero as long as there were none. -/
theorem after_lastResults (lines : List String) (hlast : standard.Unassigned lastResult lines)
    (hbefore : standard.Unassigned resultBeforeLast lines) :
    (standard.after lines).vars.find? lastResult =
        some ⟨lastResult, (standard.queryResults lines).getLast?.getD 0, false⟩ ∧
      (standard.after lines).vars.find? resultBeforeLast =
        some ⟨resultBeforeLast, (standard.queryResults lines).dropLast.getLast?.getD 0, false⟩ := by
  have hstart : standard.Remembers 0 0 := ⟨rfl, rfl⟩
  have hafter := hstart.after lines hlast hbefore
  refine ⟨hafter.last_eq, ?_⟩
  rw [hafter.before_eq]
  cases standard.queryResults lines with
  | nil => rfl
  | cons first results => simp only [List.dropLast_cons_cons, List.getLast?_cons, Option.getD_some]

/-- Seven and fifty are the answers of the two queries that succeed. The other lines define
something, also a function with the name of a result, or fail: for a division by zero, for want of
a bracket, for a constant that cannot change, and for a function that calls itself. -/
theorem after_lastResults_mixed :
    let lines := ["7", "f(x) = x * x", "a = f(ans)", "1 / 0", "ans = 1 / 0", "a + 1", "(a", "pi = 3",
      "preans(x) = x", "f(x) = f(x)", "f(1)"]
    (standard.Unassigned lastResult lines ∧ standard.Unassigned resultBeforeLast lines) ∧
      (standard.after lines).vars.find? lastResult = some ⟨lastResult, 50, false⟩ ∧
      (standard.after lines).vars.find? resultBeforeLast = some ⟨resultBeforeLast, 7, false⟩ := by
  intro lines
  have hlast : standard.Unassigned lastResult lines := by decide +kernel
  have hbefore : standard.Unassigned resultBeforeLast lines := by decide +kernel
  have hresults : standard.queryResults lines = [7, 50] := by decide +kernel
  have hafter := after_lastResults lines hlast hbefore
  rw [hresults] at hafter
  exact ⟨⟨hlast, hbefore⟩, hafter⟩

end SymbolTable

end Calculator
