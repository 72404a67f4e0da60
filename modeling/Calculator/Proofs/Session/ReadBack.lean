import Calculator.Proofs.Expr.Value
import Calculator.Proofs.Grammar.Parse
import Calculator.Proofs.Session.Transition
import Calculator.Proofs.Token.Split

/-!
# Reading a variable back

A query that consists of the name of a variable answers with the value of the variable, to which
the reader of expressions adds zero. But variables and functions have names of their own, and a
name that a function bears too is the beginning of a call. Such a variable keeps its value and is
listed with it, while a query for it fails for want of an argument.

* `compile_name`, `valueOf_name`: what a name by itself stands for.
* `record_of_isOpen`: the result of a query can always be stored in a session.
* `run_name`: what the name of a variable answers, after any lines.
* `not_forall_run_name`: a variable that cannot be read back.
-/

namespace Calculator

open Text Reading

/-! ## A name by itself -/

theorem equals_not_mem_of_isName {s : List Char} (h : IsName s) : '=' ∉ s := by
  intro hmem
  exact absurd (h.2 _ hmem) (by decide)

theorem Line.ofText_of_isName {name : String} (h : IsName name.toList) :
    Line.ofText name = .query name := by
  rw [Line.ofText_of_not_mem (equals_not_mem_of_isName h), trim_of_isName h, String.ofList_toList]

namespace Expr

variable {t : Token}

theorem parseAll_ident (h : t.kind = .ident) :
    parseAll [t] = .ok (.binary .add (.var t.text) (.number 0)) := by
  have hread := parseAll_atom (Phrase.name t h)
  rwa [if_pos (by simp [maxLevels])] at hread

/-- A call needs its argument. -/
theorem parseAll_call (h : t.kind = .call) : parseAll [t] = .error (.invalidCall t.text) := by
  have hstart : t.kind.startsOperand := by rw [h]; rfl
  have hread (n : Nat) : Reading.sum (n + 1) [t] = .error (.invalidCall t.text) := by
    rw [sum_eq_opened, opened, sumWith_cons hstart, chained, operand_call_nil h]
    rfl
  have hmax : Reading.sum maxLevels [t] = .error (.invalidCall t.text) := hread 255
  rw [parseAll, parse, List.drop_zero, hmax]
  rfl

end Expr

namespace SymbolTable

variable {t : SymbolTable} {name : String}

theorem compile_name (h : IsName name.toList) :
    t.compile name =
      if name ∈ t.functions.names then .error (.invalidCall name)
      else .ok (.binary .add (.var name) (.number 0)) := by
  unfold compile
  rw [tokenise_name _ h]
  by_cases hfunction : name ∈ t.functions.names
  · rw [if_pos hfunction, if_pos hfunction]
    exact Expr.parseAll_call (t := ⟨.call, name⟩) rfl
  · rw [if_neg hfunction, if_neg hfunction]
    exact Expr.parseAll_ident (t := ⟨.ident, name⟩) rfl

theorem valueOf_name {b : Binding Float} (hb : t.vars.find? b.name = some b)
    (h : IsName b.name.toList) :
    t.valueOf b.name =
      if b.name ∈ t.functions.names then .error (.invalidCall b.name)
      else .ok (b.value + 0) := by
  have hlookup : t.lookup none b.name = .ok b.value := by
    simp [lookup, getVariable_eq_ok_iff.2 hb]
  unfold valueOf
  rw [compile_name h]
  split
  · rfl
  · simp [evaluate, hlookup, Operator.apply]

/-! ## The result of a query -/

/-- A variable can be written to unless it is final. -/
theorem exists_write_of_not_final
    (h : ∀ old, t.vars.find? name = some old → old.isFinal = false) (value : Float) :
    ∃ t', t.write (.setVariable name value) = .ok t' := by
  obtain ⟨vars, hput⟩ : ∃ vars, t.vars.put ⟨name, value, false⟩ = .ok vars :=
    Bindings.exists_put_eq_ok h
  exact ⟨_, putVariable_eq_ok_iff.2 ⟨vars, hput, rfl⟩⟩

theorem exists_write_of_isOpen (h : t.IsOpen name) (value : Float) :
    ∃ t', t.write (.setVariable name value) = .ok t' := by
  refine exists_write_of_not_final ?_ value
  intro old hold
  obtain ⟨value, hfind⟩ := h
  rw [hfind, Option.some.injEq] at hold
  rw [← hold]

/-- A result can be stored if the last two may change. -/
theorem record_of_isOpen (hlast : t.IsOpen lastResult) (hbefore : t.IsOpen resultBeforeLast)
    (result : Float) : (t.record result).1 = .ok result := by
  obtain ⟨last, hfind⟩ := id hlast
  obtain ⟨t₁, hwrite⟩ := exists_write_of_isOpen hbefore last
  have hlast₁ : t₁.IsOpen lastResult := isOpen_of_write hwrite (fun _ => Write.noConfusion) hlast
  obtain ⟨t₂, hresult⟩ := exists_write_of_isOpen hlast₁ result
  rw [record_of_ok hfind hwrite hresult]

theorem run_query_value (hlast : t.IsOpen lastResult) (hbefore : t.IsOpen resultBeforeLast)
    {line text : String} (hline : Line.ofText line = .query text) :
    (t.run line).1 = t.valueOf text := by
  cases hvalue : t.valueOf text with
  | ok result =>
    rw [run_of_query_ok hline hvalue]
    exact record_of_isOpen hlast hbefore result
  | error f => rw [run_of_query_error hline hvalue]

/-! ## Reading a variable back -/

/-- The name of a variable answers with its value plus zero, after any lines, unless a function
bears the name too: then the name is read as a call without its argument. -/
theorem run_name (lines : List String) (b : Binding Float)
    (hb : b ∈ (standard.after lines).vars.entries) :
    ((standard.after lines).run b.name).1 =
        (if b.name ∈ (standard.after lines).functions.names then .error (.invalidCall b.name)
        else .ok (b.value + 0)) ∧
      (Fault.invalidCall b.name).kind = .grammar ∧
      (Fault.invalidCall b.name).message = "Invalid function call to " ++ b.name := by
  obtain ⟨hlast, hbefore⟩ := standard_isOpen_after lines
  have hname : IsName b.name.toList :=
    (wellNamed_after lines).vars b.name (List.mem_map_of_mem hb)
  have hfind := Bindings.find?_eq_some_iff.2 ⟨hb, rfl⟩
  refine ⟨?_, rfl, rfl⟩
  rw [run_query_value hlast hbefore (Line.ofText_of_isName hname), valueOf_name hfind hname]

/-- A variable that was given a value twice, among other lines, and that no function is named
after. -/
theorem run_name_reassigned :
    ⟨"a", 3, false⟩ ∈ (standard.after ["a = 2", "f(x) = a", "1 / 0", "a = f(1) + 1"]).vars.entries ∧
      ((standard.after ["a = 2", "f(x) = a", "1 / 0", "a = f(1) + 1"]).run "a").1 =
        .ok (3 + 0) := by
  have hmem : ⟨"a", 3, false⟩ ∈
      (standard.after ["a = 2", "f(x) = a", "1 / 0", "a = f(1) + 1"]).vars.entries := by
    decide +kernel
  have hfunction :
      "a" ∉ (standard.after ["a = 2", "f(x) = a", "1 / 0", "a = f(1) + 1"]).functions.names := by
    decide +kernel
  have hanswer := (run_name _ _ hmem).1
  rw [if_neg hfunction] at hanswer
  exact ⟨hmem, hanswer⟩

/-- Not every variable can be read back: a function of the same name takes the name away. -/
theorem not_forall_run_name :
    ¬∀ lines, ∀ b ∈ (standard.after lines).vars.entries,
      ((standard.after lines).run b.name).1 = .ok (b.value + 0) := by
  intro h
  have hmem : ⟨"a", 1, false⟩ ∈ (standard.after ["a = 1", "a(x) = x"]).vars.entries := by
    decide +kernel
  have herror : ((standard.after ["a = 1", "a(x) = x"]).run "a").1 =
      .error (.invalidCall "a") := by
    decide +kernel
  have hanswer := h _ _ hmem
  rw [herror] at hanswer
  cases hanswer

end SymbolTable

end Calculator
