import Calculator.Proofs.Session.Failure
import Calculator.Proofs.Session.Line

/-!
# The transition of a line

What one line does to a table that came out of the standard one: nothing if it fails; two new
values if it is a query; one binding, written under the name on the left, if it is a definition.

* `standard_isOpen_after`: the last two results are there and may change, after any lines.
* `Recorded`, `Stored`: the table after a query, and the table after a definition.
* `run_transition`: the three cases together, for every table that lines can lead to.
-/

namespace Calculator

open Text

/-- The binding with another value, if it bears the name. -/
def Binding.revalued {α : Type} (name : String) (value : α) (b : Binding α) : Binding α :=
  if b.name = name then { b with value } else b

namespace SymbolTable

variable {t t' : SymbolTable} {name : String} {value : Float}

/-! ## The last two results -/

theorem standard_isOpen_after (lines : List String) :
    (standard.after lines).IsOpen lastResult ∧
      (standard.after lines).IsOpen resultBeforeLast := by
  obtain ⟨hlast, hbefore⟩ := isOpen_of_start (Or.inl rfl)
  exact ⟨isOpen_after lines hlast, isOpen_after lines hbefore⟩

/-- A write to a variable that is there changes its value and nothing else. -/
theorem entries_of_write {old : Float} (h : t.write (.setVariable name value) = .ok t')
    (hold : t.vars.find? name = some ⟨name, old, false⟩) :
    t'.vars.entries = t.vars.entries.map (Binding.revalued name value) := by
  obtain ⟨vars, hput, rfl⟩ := putVariable_eq_ok_iff.1 h
  have hfind : (t.vars.find? (⟨name, value, false⟩ : Binding Float).name).isSome := by
    rw [hold]
    rfl
  rw [Bindings.entries_of_put hput, if_pos hfind, Bindings.replaced]
  apply List.map_congr_left
  intro e he
  unfold Binding.revalued
  by_cases hname : e.name = name
  · have hmem : t.vars.find? name = some e := Bindings.find?_eq_some_iff.2 ⟨he, hname⟩
    rw [hold, Option.some.injEq] at hmem
    rw [if_pos hname, if_pos hname, ← hmem]
  · rw [if_neg hname, if_neg hname]

/-! ## What a line leaves behind -/

/-- The table `t'` is `t` with a new result: that is the last result now, and the last result of
`t` is the one before it. -/
structure Recorded (t t' : SymbolTable) (result : Float) : Prop where
  functions_eq : t'.functions = t.functions
  entries_eq : ∃ last before,
    t.vars.find? lastResult = some ⟨lastResult, last, false⟩ ∧
    t.vars.find? resultBeforeLast = some ⟨resultBeforeLast, before, false⟩ ∧
    t'.vars.entries = (t.vars.entries.map (Binding.revalued resultBeforeLast last)).map
      (Binding.revalued lastResult result)

/-- The table `t'` is `t` with what the text `right` stands for stored under the text `left`: a
number if `left` is a name, and a function if it is a name with `(x)` behind it. -/
inductive Stored (t t' : SymbolTable) (left right : List Char) : Prop where
  | number (name : String) (value : Float) (hname : IsName name.toList)
      (hleft : trim left = name.toList)
      (hvalue : t.valueOf (String.ofList (trim right)) = .ok value)
      (hfunctions : t'.functions = t.functions)
      (hvars : t.vars.Assigned t'.vars ⟨name, value, false⟩)
  | function (name : String) (body : Expr) (hname : IsName name.toList)
      (hleft : trim left = name.toList ++ ['(', 'x', ')'])
      (hbody : t.compile (String.ofList (trim right)) = .ok body)
      (hvars : t'.vars = t.vars)
      (hfunctions : t.functions.Assigned t'.functions ⟨name, body, false⟩)

theorem run_query (hlast : t.IsOpen lastResult) (hbefore : t.IsOpen resultBeforeLast)
    {line : String} (hline : '=' ∉ line.toList) {result : Float}
    (h : (t.run line).1 = .ok result) :
    t.valueOf (String.ofList (trim line.toList)) = .ok result ∧
      t.Recorded (t.run line).2 result := by
  have hquery := Line.ofText_of_not_mem hline
  have houtcome := run_outcome t line
  rw [h] at houtcome
  generalize (t.run line).2 = t₂ at houtcome ⊢
  obtain ⟨last, hlast⟩ := hlast
  obtain ⟨before, hbefore⟩ := hbefore
  cases houtcome with
  | recorded text _ last' t₁ _ htext hvalue hlast' hwrite hresult =>
    rw [hquery, Line.query.injEq] at htext
    rw [hlast, Option.some.injEq] at hlast'
    subst hlast' htext
    have hlast₁ := find?_lastResult_of_write hwrite
    rw [hlast] at hlast₁
    refine ⟨hvalue, ?_, last, before, hlast, hbefore, ?_⟩
    · rw [functions_of_putVariable hresult, functions_of_putVariable hwrite]
    · rw [entries_of_write hresult hlast₁, entries_of_write hwrite hbefore]
  | variableDefined _ _ _ _ _ htext =>
    rw [hquery] at htext
    cases htext
  | functionDefined _ _ _ _ _ htext =>
    rw [hquery] at htext
    cases htext

theorem run_definition {line : String} (hline : '=' ∈ line.toList) {result : Float}
    (h : (t.run line).1 = .ok result) :
    result = 0 ∧ ∃ left right, line.toList = left ++ '=' :: right ∧ '=' ∉ left ∧
      t.Stored (t.run line).2 left right := by
  obtain ⟨left, right, htext, hleft⟩ := List.eq_append_cons_of_mem hline
  have hdefinition := Line.ofText_of_append htext hleft
  have houtcome := run_outcome t line
  rw [h] at houtcome
  generalize (t.run line).2 = t' at houtcome ⊢
  cases houtcome with
  | recorded _ _ _ _ _ hquery =>
    rw [hdefinition] at hquery
    cases hquery
  | variableDefined _ _ name value _ hparts htarget hvalue hwrite =>
    rw [hdefinition, Line.definition.injEq] at hparts
    obtain ⟨rfl, rfl⟩ := hparts
    obtain ⟨hname, hletters⟩ := Target.ofText?_eq_number_iff.1 htarget
    obtain ⟨hvars, hfunctions⟩ := putVariable_eq_ok_iff_assigned.1 hwrite
    refine ⟨rfl, left, right, htext, hleft, .number name value hletters ?_ hvalue hfunctions hvars⟩
    rw [← hname, String.toList_ofList]
  | functionDefined _ _ name body _ hparts htarget hbody hwrite =>
    rw [hdefinition, Line.definition.injEq] at hparts
    obtain ⟨rfl, rfl⟩ := hparts
    obtain ⟨hname, hletters⟩ := Target.ofText?_eq_function_iff.1 htarget
    obtain ⟨hfunctions, hvars⟩ := putFunction_eq_ok_iff_assigned.1 hwrite
    refine ⟨rfl, left, right, htext, hleft, .function name body hletters ?_ hbody hvars hfunctions⟩
    rw [← Target.toList_withArgument, ← hname, String.toList_ofList]

/-- What a line does to a table that other lines have led to from the standard one. A line that
fails changes nothing. A query gives new values to the last two results, and changes nothing else.
A definition answers zero, and writes one binding: its name is on the left, in letters only, and
it stands in the place of one that was not final or behind all others. -/
theorem run_transition (lines : List String) (line : String) :
    (∀ f, ((standard.after lines).run line).1 = .error f →
      ((standard.after lines).run line).2 = standard.after lines) ∧
    ('=' ∉ line.toList → ∀ result, ((standard.after lines).run line).1 = .ok result →
      (standard.after lines).valueOf (String.ofList (trim line.toList)) = .ok result ∧
      (standard.after lines).Recorded ((standard.after lines).run line).2 result) ∧
    ('=' ∈ line.toList → ∀ result, ((standard.after lines).run line).1 = .ok result →
      result = 0 ∧ ∃ left right, line.toList = left ++ '=' :: right ∧ '=' ∉ left ∧
        (standard.after lines).Stored ((standard.after lines).run line).2 left right) := by
  obtain ⟨hlast, hbefore⟩ := standard_isOpen_after lines
  refine ⟨?_, ?_, ?_⟩
  · intro f
    exact run_error_unchanged hbefore.mem_names fun h => not_halfFinal_of_isOpen hlast h.1
  · intro hline result
    exact run_query hlast hbefore hline
  · intro hline result
    exact run_definition hline

example : (standard.after ["7", "f(x) = x * x", "1 / 0", "a = f(ans)", "a + 1"]).vars.entries =
    [⟨"ans", 50, false⟩, ⟨"preans", 7, false⟩, ⟨"pi", pi, true⟩, ⟨"e", euler, true⟩,
      ⟨"a", 49, false⟩] := by
  decide +kernel

end SymbolTable

end Calculator
