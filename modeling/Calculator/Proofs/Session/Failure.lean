import Calculator.Proofs.Session.Outcome
import Mathlib.Control.Monad.Basic

/-!
# Lines that fail

A line that fails leaves the table as it was, with one exception. A query writes its two results
one after the other, the result before the last first. If the last result is final and the one
before it is not, then the second write fails after the first has been made.

* `HalfFinal`: the tables on which that happens.
* `run_error_unchanged_iff`: when a line that fails leaves the table as it was, for every table
  that can be built, and what it changes otherwise.
* `exists_run_error_changed`: a table, and a query that fails on it and changes it.
-/

namespace Calculator.SymbolTable

variable {t t' : SymbolTable} {name : String} {value : Float}

/-! ## Writing what is there already -/

theorem write_self (h : t.vars.find? name = some ⟨name, value, false⟩) :
    t.write (.setVariable name value) = .ok t := by
  obtain ⟨hmem, _⟩ := Bindings.find?_eq_some_iff.1 h
  obtain ⟨front, back, hentries⟩ := List.append_of_mem hmem
  exact putVariable_eq_ok_iff_assigned.2 ⟨.replaced front back _ hentries rfl rfl hentries, rfl⟩

theorem find?_of_write_self (h : t.write (.setVariable name value) = .ok t) :
    t.vars.find? name = some ⟨name, value, false⟩ := by
  rw [find?_of_putVariable h name, if_pos rfl]

theorem isFinal_of_write {old : Binding Float} (h : t.write (.setVariable name value) = .ok t')
    (hold : t.vars.find? name = some old) : old.isFinal = false := by
  obtain ⟨vars, hput, _⟩ := putVariable_eq_ok_iff.1 h
  exact Bindings.isFinal_of_put hput hold

/-! ## Tables on which a query is recorded by half -/

/-- The last result is final, while the result before it may change and has another value. -/
def HalfFinal (t : SymbolTable) : Prop :=
  ∃ last before, t.vars.find? lastResult = some ⟨lastResult, last, true⟩ ∧
    t.vars.find? resultBeforeLast = some ⟨resultBeforeLast, before, false⟩ ∧ before ≠ last

theorem record_of_halfFinal (h : t.HalfFinal) (result : Float) :
    (t.record result).1 = .error (.cannotModify lastResult) ∧ (t.record result).2 ≠ t := by
  obtain ⟨last, before, hlast, hbefore, hne⟩ := h
  cases hwrite : t.write (.setVariable resultBeforeLast last) with
  | error f =>
    obtain ⟨_, old, hold, hfinal⟩ := putVariable_eq_error_iff.1 hwrite
    rw [hbefore, Option.some.injEq] at hold
    rw [← hold] at hfinal
    cases hfinal
  | ok t₁ =>
    have herror :
        t₁.write (.setVariable lastResult result) = .error (.cannotModify lastResult) := by
      apply putVariable_eq_error_iff.2
      refine ⟨rfl, ⟨lastResult, last, true⟩, ?_, rfl⟩
      rw [find?_lastResult_of_write hwrite, hlast]
    have hchanged : t₁ ≠ t := by
      rintro rfl
      rw [find?_of_write_self hwrite] at hbefore
      cases hbefore
      exact hne rfl
    rw [record_of_half hlast hwrite herror]
    exact ⟨rfl, hchanged⟩

theorem halfFinal_of_write {last : Binding Float} (hnames : resultBeforeLast ∈ t.vars.names)
    (hlast : t.vars.find? lastResult = some last) (hfinal : last.isFinal)
    (hbefore : t.write (.setVariable resultBeforeLast last.value) = .ok t') (hne : t' ≠ t) :
    t.HalfFinal := by
  obtain ⟨before, isFinal, hfind⟩ := exists_find?_of_mem_names hnames
  cases isFinal_of_write hbefore hfind
  refine ⟨last.value, before, ?_, hfind, ?_⟩
  · rw [hlast, ← Bindings.name_of_find?_eq_some hlast, ← hfinal]
  · rintro rfl
    rw [write_self hfind, Except.ok.injEq] at hbefore
    exact hne hbefore.symm

/-- What a line that fails has changed, if it has changed anything. -/
theorem Outcome.changed {line : String} {f : Fault} (h : Outcome t line (.error f) t')
    (hne : t' ≠ t) :
    ∃ text result last, Line.ofText line = .query text ∧ t.valueOf text = .ok result ∧
      f = .cannotModify lastResult ∧ t.vars.find? lastResult = some last ∧ last.isFinal ∧
      t.write (.setVariable resultBeforeLast last.value) = .ok t' := by
  cases h with
  | refused f => exact absurd rfl hne
  | halfRecorded text result last _ hline hvalue hlast hfinal hbefore =>
    exact ⟨text, result, last, hline, hvalue, rfl, hlast, hfinal, hbefore⟩

theorem not_halfFinal_of_isOpen (h : t.IsOpen lastResult) : ¬t.HalfFinal := by
  rintro ⟨last, before, hlast, _⟩
  obtain ⟨value, hvalue⟩ := h
  rw [hlast] at hvalue
  cases hvalue

theorem run_error_unchanged (hnames : resultBeforeLast ∈ t.vars.names) {line : String}
    (hhalf : ¬(t.HalfFinal ∧
      ∃ text result, Line.ofText line = .query text ∧ t.valueOf text = .ok result))
    {f : Fault} (h : (t.run line).1 = .error f) : (t.run line).2 = t := by
  have houtcome := run_outcome t line
  rw [h] at houtcome
  by_cases hne : (t.run line).2 = t
  · exact hne
  · obtain ⟨text, result, last, hline, hvalue, _, hlast, hfinal, hbefore⟩ := houtcome.changed hne
    have hhalf' : t.HalfFinal := halfFinal_of_write hnames hlast hfinal hbefore hne
    exact absurd ⟨hhalf', text, result, hline, hvalue⟩ hhalf

/-! ## Tables that can be built -/

/-- On every table that can be built, a line that fails leaves the table as it was, unless it is a
query that has a value and the last two results are final by half. If it changes the table, then
only the result before the last changes, to the last result. As long as no constant is given the
name of the last result, no line that fails changes anything. -/
theorem run_error_unchanged_iff (start : SymbolTable) (hstart : start = standard ∨ start = empty)
    (writes : List Write) (lines : List String) (line : String) :
    let t := (start.afterWrites writes).after lines
    ((∀ f, (t.run line).1 = .error f → (t.run line).2 = t) ↔
      ¬(t.HalfFinal ∧
        ∃ text result, Line.ofText line = .query text ∧ t.valueOf text = .ok result)) ∧
    (∀ f, (t.run line).1 = .error f → (t.run line).2 ≠ t →
      f = .cannotModify lastResult ∧ (t.run line).2.functions = t.functions ∧
      ∃ last, t.vars.find? lastResult = some ⟨lastResult, last, true⟩ ∧
        t.vars.Assigned (t.run line).2.vars ⟨resultBeforeLast, last, false⟩) ∧
    ((∀ constant, .defineConstant lastResult constant ∉ writes) →
      ∀ f, (t.run line).1 = .error f → (t.run line).2 = t) := by
  intro t
  obtain ⟨hlast, hbefore⟩ := isOpen_of_start hstart
  have hnames : resultBeforeLast ∈ t.vars.names :=
    mem_names_after lines (mem_names_afterWrites writes hbefore.mem_names)
  refine ⟨⟨?_, fun hhalf f => run_error_unchanged hnames hhalf⟩, ?_, ?_⟩
  · rintro h ⟨hhalf, text, result, hline, hvalue⟩
    obtain ⟨herror, hchanged⟩ := record_of_halfFinal hhalf result
    rw [← run_of_query_ok hline hvalue] at herror hchanged
    exact hchanged (h _ herror)
  · intro f hf hne
    have houtcome := run_outcome t line
    rw [hf] at houtcome
    obtain ⟨text, result, last, _, _, rfl, hlast, hfinal, hbefore⟩ := houtcome.changed hne
    obtain ⟨hassigned, hfunctions⟩ := putVariable_eq_ok_iff_assigned.1 hbefore
    refine ⟨rfl, hfunctions, last.value, ?_, hassigned⟩
    rw [hlast, ← Bindings.name_of_find?_eq_some hlast, ← hfinal]
  · intro hwrites f
    have hopen : t.IsOpen lastResult := isOpen_after lines (isOpen_afterWrites hwrites hlast)
    exact run_error_unchanged hnames fun h => not_halfFinal_of_isOpen hopen h.1

/-- With a constant of another name, a division by zero changes nothing. -/
theorem run_error_unchanged_division :
    (((empty.afterWrites [.defineConstant "c" 5]).after ["y = 2"]).run "c / 0").1 =
        .error .divisionByZero ∧
      (((empty.afterWrites [.defineConstant "c" 5]).after ["y = 2"]).run "c / 0").2 =
        (empty.afterWrites [.defineConstant "c" 5]).after ["y = 2"] := by
  have herror : (((empty.afterWrites [.defineConstant "c" 5]).after ["y = 2"]).run "c / 0").1 =
      .error .divisionByZero := by
    decide +kernel
  obtain ⟨_, _, hunchanged⟩ :=
    run_error_unchanged_iff empty (.inr rfl) [.defineConstant "c" 5] ["y = 2"] "c / 0"
  refine ⟨herror, hunchanged ?_ _ herror⟩
  intro constant hmem
  rw [List.mem_singleton] at hmem
  exact absurd (Write.defineConstant.inj hmem).1 (by decide)

/-- The last result is made final at five. A query then fails, but five has become the result
before the last. -/
theorem exists_run_error_changed :
    let t := empty.afterWrites [.defineConstant lastResult 5]
    (t.run "1").1 = .error (.cannotModify lastResult) ∧
      (t.run "1").2.vars.find? resultBeforeLast = some ⟨resultBeforeLast, 5, false⟩ ∧
      (t.run "1").2 ≠ t := by
  have hvars : ((empty.afterWrites [.defineConstant lastResult 5]).run "1").2.vars ≠
      (empty.afterWrites [.defineConstant lastResult 5]).vars := by
    decide +kernel
  exact ⟨by decide +kernel, by decide +kernel, fun h => hvars (congrArg vars h)⟩

end Calculator.SymbolTable
