import Calculator.Proofs.Session.Line
import Calculator.Proofs.SymbolTable.Writes

/-!
# What a line does to the table

A line writes to the table at most twice, and only what may change later. It writes under names of
letters, and what it stores as a function has been read with the functions of that moment.

* `Outcome`, `run_outcome`: the five things that a line can do, with the writes that each makes.
* `LineWrites`, `Outcome.keeps`: the writes that a line can make, and what all of them keep.
* `after`: the table after some lines, whatever came of them.
* `after_induction`: what the writes of lines keep holds after any number of lines.
* `mem_names_after`, `isOpen_after`: no line loses a variable or makes one final.
* `wellNamed_after`: the names in a session consist of letters.
-/

namespace Calculator.SymbolTable

open Text

variable {t : SymbolTable} {name : String}

/-! ## One line -/

/-- The five things that a line can do to the table `t`: the answer, and the table after it. -/
inductive Outcome (t : SymbolTable) (line : String) : Except Fault Float → SymbolTable → Prop where
  /-- The line fails before anything is written. -/
  | refused (f : Fault) : Outcome t line (.error f) t
  /-- A query has a value, but the last result is final. This comes out when the result before it
  has been written already. -/
  | halfRecorded (text : String) (result : Float) (last : Binding Float) (t₁ : SymbolTable)
      (hline : Line.ofText line = .query text) (hvalue : t.valueOf text = .ok result)
      (hlast : t.vars.find? lastResult = some last) (hfinal : last.isFinal)
      (hbefore : t.write (.setVariable resultBeforeLast last.value) = .ok t₁) :
      Outcome t line (.error (.cannotModify lastResult)) t₁
  /-- A query has a value, which becomes the last result. -/
  | recorded (text : String) (result : Float) (last : Binding Float) (t₁ t₂ : SymbolTable)
      (hline : Line.ofText line = .query text) (hvalue : t.valueOf text = .ok result)
      (hlast : t.vars.find? lastResult = some last)
      (hbefore : t.write (.setVariable resultBeforeLast last.value) = .ok t₁)
      (hresult : t₁.write (.setVariable lastResult result) = .ok t₂) :
      Outcome t line (.ok result) t₂
  /-- A variable is given the value of the right side. -/
  | variableDefined (left right name : String) (value : Float) (t' : SymbolTable)
      (hline : Line.ofText line = .definition left right)
      (hleft : Target.ofText? left = some (.number name)) (hright : t.valueOf right = .ok value)
      (hwrite : t.write (.setVariable name value) = .ok t') : Outcome t line (.ok 0) t'
  /-- A function is given the right side as its body. -/
  | functionDefined (left right name : String) (body : Expr) (t' : SymbolTable)
      (hline : Line.ofText line = .definition left right)
      (hleft : Target.ofText? left = some (.function name)) (hright : t.compile right = .ok body)
      (hwrite : t.write (.setFunction name body) = .ok t') : Outcome t line (.ok 0) t'

theorem find?_lastResult_of_write {t₁ : SymbolTable} {value : Float}
    (h : t.write (.setVariable resultBeforeLast value) = .ok t₁) :
    t₁.vars.find? lastResult = t.vars.find? lastResult := by
  have hne : lastResult ≠ resultBeforeLast := by decide
  rw [find?_of_putVariable h, if_neg hne]

theorem outcome_of_query {line text : String} {result : Float}
    (hline : Line.ofText line = .query text) (hvalue : t.valueOf text = .ok result) :
    Outcome t line (t.record result).1 (t.record result).2 := by
  cases hlast : t.vars.find? lastResult with
  | none =>
    simp only [record, getVariable, hlast]
    exact .refused _
  | some last =>
    cases hbefore : t.write (.setVariable resultBeforeLast last.value) with
    | error f =>
      rw [record_of_error hlast hbefore]
      exact .refused f
    | ok t₁ =>
      cases hresult : t₁.write (.setVariable lastResult result) with
      | ok t₂ =>
        rw [record_of_ok hlast hbefore hresult]
        exact .recorded text result last t₁ t₂ hline hvalue hlast hbefore hresult
      | error f =>
        rw [record_of_half hlast hbefore hresult]
        obtain ⟨rfl, old, hold, hfinal⟩ := putVariable_eq_error_iff.1 hresult
        rw [find?_lastResult_of_write hbefore, hlast, Option.some.injEq] at hold
        exact .halfRecorded text result last t₁ hline hvalue hlast (hold ▸ hfinal) hbefore

theorem outcome_of_definition {line left right : String} {t' : SymbolTable}
    (hline : Line.ofText line = .definition left right) (hdefine : t.define left right = .ok t') :
    Outcome t line (.ok 0) t' := by
  cases htarget : Target.ofText? left with
  | none =>
    rw [define_of_none htarget] at hdefine
    cases hdefine
  | some target =>
    cases target with
    | number name =>
      rw [define_of_number htarget] at hdefine
      obtain ⟨value, hvalue, hwrite⟩ := bind_eq_ok_iff.1 hdefine
      exact .variableDefined left right name value t' hline htarget hvalue hwrite
    | function name =>
      rw [define_of_function htarget] at hdefine
      obtain ⟨body, hbody, hwrite⟩ := bind_eq_ok_iff.1 hdefine
      exact .functionDefined left right name body t' hline htarget hbody hwrite

/-- A line does one of the five things. -/
theorem run_outcome (t : SymbolTable) (line : String) :
    Outcome t line (t.run line).1 (t.run line).2 := by
  cases hline : Line.ofText line with
  | query text =>
    cases hvalue : t.valueOf text with
    | error f =>
      rw [run_of_query_error hline hvalue]
      exact .refused f
    | ok result =>
      rw [run_of_query_ok hline hvalue]
      exact outcome_of_query hline hvalue
  | definition left right =>
    cases hdefine : t.define left right with
    | error f =>
      rw [run_of_definition_error hline hdefine]
      exact .refused f
    | ok t' =>
      rw [run_of_definition_ok hline hdefine]
      exact outcome_of_definition hline hdefine

/-- The writes that a line can make to the table `t`. -/
inductive LineWrites (t : SymbolTable) : Write → Prop where
  | number (name : String) (value : Float) (hname : IsName name.toList) :
      LineWrites t (.setVariable name value)
  | function (name text : String) (body : Expr) (hname : IsName name.toList)
      (hbody : t.compile text = .ok body) : LineWrites t (.setFunction name body)

theorem LineWrites.ne_defineConstant {w : Write} (h : t.LineWrites w) (value : Float) :
    w ≠ .defineConstant name value := by
  cases h <;> exact Write.noConfusion

/-- A line keeps what the writes that it can make keep. -/
theorem Outcome.keeps {P : SymbolTable → Prop} {line : String} {answer : Except Fault Float}
    {t' : SymbolTable} (h : Outcome t line answer t')
    (hwrite : ∀ t t' w, P t → t.LineWrites w → t.write w = .ok t' → P t') (ht : P t) : P t' := by
  have hresults : IsName lastResult.toList ∧ IsName resultBeforeLast.toList := by decide
  cases h with
  | refused f => exact ht
  | halfRecorded text result last _ hline hvalue hlast hfinal hbefore =>
    exact hwrite _ _ _ ht (.number _ _ hresults.2) hbefore
  | recorded text result last t₁ _ hline hvalue hlast hbefore hresult =>
    have ht₁ := hwrite _ _ _ ht (.number _ _ hresults.2) hbefore
    exact hwrite _ _ _ ht₁ (.number _ _ hresults.1) hresult
  | variableDefined left right name value _ hline hleft hright hput =>
    exact hwrite _ _ _ ht (.number _ _ (Target.ofText?_eq_number_iff.1 hleft).2) hput
  | functionDefined left right name body _ hline hleft hright hput =>
    exact hwrite _ _ _ ht (.function _ _ _ (Target.ofText?_eq_function_iff.1 hleft).2 hright) hput

/-! ## Many lines -/

/-- The table after some lines, put to it one after the other. -/
def after (t : SymbolTable) (lines : List String) : SymbolTable :=
  lines.foldl (fun t line => (t.run line).2) t

theorem after_append (t : SymbolTable) (lines lines' : List String) :
    t.after (lines ++ lines') = (t.after lines).after lines' :=
  List.foldl_append

/-- What a line answers after some others is what the table after those answers to it. -/
theorem runAll_concat (t : SymbolTable) (lines : List String) (line : String) :
    t.runAll (lines ++ [line]) = t.runAll lines ++ [(t.after lines).run line] := by
  induction lines generalizing t with
  | nil => rfl
  | cons first lines ih =>
    simp only [List.cons_append, runAll, ih]
    rfl

/-- What the writes of lines keep holds after any number of lines. -/
theorem after_induction {P : SymbolTable → Prop} (lines : List String)
    (hwrite : ∀ t t' w, P t → t.LineWrites w → t.write w = .ok t' → P t') (ht : P t) :
    P (t.after lines) := by
  induction lines generalizing t with
  | nil => exact ht
  | cons line lines ih => exact ih ((run_outcome t line).keeps hwrite ht)

theorem mem_names_after (lines : List String) (h : name ∈ t.vars.names) :
    name ∈ (t.after lines).vars.names :=
  after_induction lines (fun _ _ _ ht _ hwrite => mem_names_of_write hwrite ht) h

theorem isOpen_after (lines : List String) (h : t.IsOpen name) : (t.after lines).IsOpen name :=
  after_induction (P := fun t => t.IsOpen name) lines
    (fun _ _ _ ht hw hwrite => isOpen_of_write hwrite hw.ne_defineConstant ht) h

/-! ## The names in a session -/

/-- All names in the table consist of letters. -/
structure WellNamed (t : SymbolTable) : Prop where
  vars : ∀ name ∈ t.vars.names, IsName name.toList
  functions : ∀ name ∈ t.functions.names, IsName name.toList

theorem wellNamed_standard : standard.WellNamed := by
  constructor <;> decide +kernel

theorem WellNamed.write {t' : SymbolTable} {w : Write} (h : t.WellNamed) (hw : t.LineWrites w)
    (hwrite : t.write w = .ok t') : t'.WellNamed := by
  cases hw with
  | number name value hname =>
    obtain ⟨vars, hput, rfl⟩ := putVariable_eq_ok_iff.1 hwrite
    exact ⟨Bindings.forall_names_of_put hput hname h.vars, h.functions⟩
  | function name text body hname hbody =>
    obtain ⟨functions, hput, rfl⟩ := putFunction_eq_ok_iff.1 hwrite
    exact ⟨h.vars, Bindings.forall_names_of_put hput hname h.functions⟩

theorem wellNamed_after (lines : List String) : (standard.after lines).WellNamed :=
  after_induction lines (fun _ _ _ ht hw hwrite => ht.write hw hwrite) wellNamed_standard

end Calculator.SymbolTable
