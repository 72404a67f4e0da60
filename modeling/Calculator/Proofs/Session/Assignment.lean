import Calculator.Proofs.Binary64.Rounding
import Calculator.Proofs.Session.Commute
import Calculator.Proofs.Session.History

/-!
# What an assignment stores

An assignment fails if a query for its right side would, and with the same fault. Otherwise it
stores what the query would have answered. The name on its left answers with that value from then
on, until a line gives it another one, defines a function of the name, or, for the last two results,
until a query succeeds. The value is read back with zero added to it, as all values are; but the
stored one is a sum with zero already.

* `add_zero_add_zero`: a second zero makes no difference.
* `agreeOff_run`: the names under which a line can change the table.
* `LeavesAlone`: lines among which none changes what stands under a name.
* `Keeps.run`, `Keeps.after`: a value that one line, and many lines, leave alone.
* `exists_add_zero_of_valueOf`: the value of a text is a sum with zero.
* `keeps_run_assignment`: what an assignment stores.
* `run_assignment`: an assignment, and a query for its name after further lines.
-/

namespace Calculator

open Text

/-! ## Adding zero -/

section AddZero

open Float.Model Float.Model.UnpackedFloat

variable {x : Float}

theorem add_zero_eq (x : Float) :
    x + 0 = .ofModel (.pack (.add .binary64 x.toModel.unpack (.zero .positive))) := rfl

/-- Zero makes a difference to the negative zero alone. -/
theorem add_zero_of_ne (h : x.toModel.unpack ≠ .zero .negative) : x + 0 = x := by
  have hadd : UnpackedFloat.add .binary64 x.toModel.unpack (.zero .positive) =
      x.toModel.unpack := by
    cases hunpack : x.toModel.unpack with
    | zero sign =>
      cases sign with
      | negative => exact absurd hunpack h
      | positive => rfl
    | infinity | notANumber | finite => rfl
  rw [add_zero_eq, hadd, ofModel_pack_unpack]

/-- What one zero does to a number, a second one does not undo or go on with. -/
theorem add_zero_add_zero (x : Float) : x + 0 + 0 = x + 0 := by
  by_cases h : x.toModel.unpack = .zero .negative
  · have hzero : x + 0 = 0 := by
      rw [add_zero_eq, h]
      rfl
    have hne : (0 : Float).toModel.unpack ≠ .zero .negative := by
      show UnpackedFloat.zero .positive ≠ .zero .negative
      simp
    rw [hzero, add_zero_of_ne hne]
  · rw [add_zero_of_ne h, add_zero_of_ne h]

end AddZero

/-! ## Assignments -/

/-- A name before the equals sign is assigned to, and all that stands behind the sign is the right
side. -/
theorem Line.defines_assignment {name : String} (hname : IsName name.toList) (text : String) :
    (ofText (name ++ "=" ++ text)).Defines (.number name) (String.ofList (trim text.toList)) := by
  have hparts : (name ++ "=" ++ text).toList = name.toList ++ '=' :: text.toList := by
    rw [String.toList_append, String.toList_append, List.append_assoc]
    rfl
  refine ⟨name, ?_, Target.ofText?_eq_number_iff.2 ⟨rfl, hname⟩⟩
  rw [ofText_of_append hparts (equals_not_mem_of_isName hname), trim_of_isName hname,
    String.ofList_toList]

namespace SymbolTable

variable {t t' : SymbolTable} {name line : String} {names : List String} {value : Float}

/-! ## What a line can change -/

/-- A line changes what stands under the name on its left, if there is one and the line does not
fail; and a query changes the last two results. -/
theorem agreeOff_run (t : SymbolTable) (line : String) :
    ∃ names, t.AgreeOff (t.run line).2 names ∧ ∀ name ∈ names,
      t.Assigns line name ∨ t.Assigns line (name ++ "(x)") ∨
        '=' ∉ line.toList ∧ name ∈ [lastResult, resultBeforeLast] := by
  by_cases hsign : '=' ∈ line.toList
  · -- What is written is written under the left side, with or without the argument behind the name.
    have hassigns (left : String) (hleft : (Line.ofText line).left? = some left)
        (hanswer : (t.run line).1 = .ok 0) : t.Assigns line left := by
      rw [assigns_iff, hanswer]
      exact ⟨hleft, rfl⟩
    have houtcome := run_outcome t line
    generalize (t.run line).1 = answer, (t.run line).2 = t' at houtcome hassigns ⊢
    cases houtcome with
    | refused f => exact ⟨[], .refl t _, by simp⟩
    | halfRecorded _ _ _ _ hline => exact absurd hsign (Line.ofText_eq_query_iff.1 hline).1
    | recorded _ _ _ _ _ hline => exact absurd hsign (Line.ofText_eq_query_iff.1 hline).1
    | variableDefined left right name value _ hline hleft hright hwrite =>
      obtain ⟨rfl, _⟩ := Target.ofText?_eq_number_iff.1 hleft
      refine ⟨[left], agreeOff_of_write hwrite (List.mem_singleton_self _), ?_⟩
      rw [List.forall_mem_singleton]
      exact .inl (hassigns left (by rw [hline]; rfl) rfl)
    | functionDefined left right name body _ hline hleft hright hwrite =>
      obtain ⟨rfl, _⟩ := Target.ofText?_eq_function_iff.1 hleft
      refine ⟨[name], agreeOff_of_write hwrite (List.mem_singleton_self _), ?_⟩
      rw [List.forall_mem_singleton]
      exact .inr (.inl (hassigns _ (by rw [hline]; rfl) rfl))
  · exact ⟨_, agreeOff_run_query hsign, fun name hname => .inr (.inr ⟨hsign, hname⟩)⟩

/-- None of the lines, put to the table one after the other, gives the variable a value or defines
a function of the name. If the name is that of one of the last two results, then none is a query. -/
structure LeavesAlone (t : SymbolTable) (name : String) (lines : List String) : Prop where
  unassigned : t.Unassigned name lines
  undefined : t.Unassigned (name ++ "(x)") lines
  unrecorded : name ∈ [lastResult, resultBeforeLast] → ∀ line ∈ lines, '=' ∈ line.toList

/-! ## A value that stays -/

/-- The variable has the value, and no function bears its name. -/
structure Keeps (t : SymbolTable) (name : String) (value : Float) : Prop where
  find?_eq : t.vars.find? name = some ⟨name, value, false⟩
  not_mem : name ∉ t.functions.names

theorem Keeps.of_agreeOff (h : t.Keeps name value) (hagree : t.AgreeOff t' names)
    (hname : name ∉ names) : t'.Keeps name value := by
  constructor
  · rw [← hagree.vars name hname, h.find?_eq]
  · rw [← hagree.mem_names_iff hname]
    exact h.not_mem

theorem keeps_of_write (h : t.write (.setVariable name value) = .ok t')
    (hfunction : name ∉ t.functions.names) : t'.Keeps name value := by
  constructor
  · rw [find?_of_putVariable h, if_pos rfl]
  · rwa [functions_of_putVariable h]

/-- One line. -/
theorem Keeps.run (h : t.Keeps name value) (hvariable : ¬t.Assigns line name)
    (hfunction : ¬t.Assigns line (name ++ "(x)"))
    (hresults : name ∈ [lastResult, resultBeforeLast] → '=' ∈ line.toList) :
    (t.run line).2.Keeps name value := by
  obtain ⟨names, hagree, hnames⟩ := agreeOff_run t line
  refine h.of_agreeOff hagree ?_
  intro hname
  rcases hnames name hname with hassigns | hassigns | ⟨hquery, hresult⟩
  · exact hvariable hassigns
  · exact hfunction hassigns
  · exact hquery (hresults hresult)

/-- Many lines, by induction: what the first leaves alone is there for the others. -/
theorem Keeps.after {lines : List String} (h : t.Keeps name value)
    (hlines : t.LeavesAlone name lines) : (t.after lines).Keeps name value := by
  induction lines generalizing t with
  | nil => exact h
  | cons line lines ih =>
    obtain ⟨⟨hvariable, hvariables⟩, ⟨hfunction, hfunctions⟩, hresults⟩ := hlines
    have hresult := fun hname => hresults hname line List.mem_cons_self
    refine ih (h.run hvariable hfunction hresult) ⟨hvariables, hfunctions, ?_⟩
    intro hname later hlater
    exact hresults hname later (List.mem_cons_of_mem _ hlater)

/-! ## The value that is stored -/

/-- The tree of a text is a sum, the second operand of which is zero. -/
theorem exists_add_zero_of_valueOf {text : String} (h : t.valueOf text = .ok value) :
    ∃ w, value = w + 0 := by
  obtain ⟨e, hcompile, hvalue⟩ := bind_eq_ok_iff.1 h
  obtain ⟨tokens, _, hparse⟩ := bind_eq_ok_iff.1 hcompile
  obtain ⟨p, _, rfl⟩ := Expr.exists_tokens_eq_of_parseAll hparse
  obtain ⟨w, zero, _, hzero, hsum⟩ := Expr.evalWith_binary_eq_ok_iff.1 hvalue
  cases hzero
  cases hsum
  exact ⟨w, rfl⟩

/-- An assignment whose right side has a value stores that value, unless it meets a constant. -/
theorem keeps_run_assignment {text : String} (hname : IsName name.toList)
    (hopen : ∀ b ∈ t.vars.entries, b.name = name → b.isFinal = false)
    (hfunction : name ∉ t.functions.names)
    (hvalue : t.valueOf (String.ofList (trim text.toList)) = .ok value) :
    (t.run (name ++ "=" ++ text)).1 = .ok 0 ∧
      (t.run (name ++ "=" ++ text)).2.Keeps name value := by
  have hpending : t.pending (String.ofList (trim text.toList)) (.number name) =
      .ok (.setVariable name value) := by
    rw [pending, hvalue]
    rfl
  obtain ⟨t', hwrite⟩ : ∃ t', t.write (.setVariable name value) = .ok t' := by
    apply exists_write_of_not_final
    intro old hold
    obtain ⟨hmem, hbears⟩ := Bindings.find?_eq_some_iff.1 hold
    exact hopen old hmem hbears
  obtain ⟨hanswer, htable⟩ := run_of_defines (t := t) (Line.defines_assignment hname text)
  rw [hanswer, htable, hpending]
  constructor
  · rw [ok_bind, hwrite]
    rfl
  · simp only [Except.toOption, Option.toList, afterWrites, hwrite]
    exact keeps_of_write hwrite hfunction

/-- A name that has kept its value answers with it, and with zero added to it. -/
theorem Keeps.answer_eq {lines : List String} (h : (standard.after lines).Keeps name value)
    (hname : IsName name.toList) : ((standard.after lines).run name).1 = .ok (value + 0) := by
  obtain ⟨hlast, hbefore⟩ := standard_isOpen_after lines
  have hvalue := valueOf_name (b := ⟨name, value, false⟩) h.find?_eq hname
  rw [if_neg h.not_mem] at hvalue
  rw [run_query_value hlast hbefore (Line.ofText_of_isName hname), hvalue]

/-- An assignment to a name that is neither that of a constant nor that of a function does what a
query for its right side does. If the query fails, then so does the assignment, with the same fault.
If the query answers with a value, then the assignment answers with zero, and a query for the name
answers with that value after any further lines, whatever comes of them, that leave the name
alone. -/
theorem run_assignment (lines : List String) (name text : String) (hname : IsName name.toList)
    (hopen : ∀ b ∈ (standard.after lines).vars.entries, b.name = name → b.isFinal = false)
    (hfunction : name ∉ (standard.after lines).functions.names) (htext : '=' ∉ text.toList) :
    let t := standard.after lines
    let line := name ++ "=" ++ text
    (∀ f, (t.run text).1 = .error f → (t.run line).1 = .error f) ∧
    ∀ value, (t.run text).1 = .ok value →
      (t.run line).1 = .ok 0 ∧
      ∀ later, (t.run line).2.LeavesAlone name later →
        (((t.run line).2.after later).run name).1 = .ok value := by
  intro t line
  obtain ⟨hlast, hbefore⟩ := standard_isOpen_after lines
  rw [run_query_value hlast hbefore (Line.ofText_of_not_mem htext)]
  constructor
  · intro f hvalue
    rw [(run_of_defines (t := t) (Line.defines_assignment hname text)).1, pending, hvalue]
    rfl
  · intro value hvalue
    obtain ⟨hanswer, hkeeps⟩ := keeps_run_assignment hname hopen hfunction hvalue
    refine ⟨hanswer, ?_⟩
    intro later hlater
    have hlines : (t.run line).2.after later = standard.after (lines ++ line :: later) :=
      (after_append standard lines (line :: later)).symm
    have hlater' := hkeeps.after hlater
    obtain ⟨w, rfl⟩ := exists_add_zero_of_valueOf hvalue
    rw [hlines] at hlater' ⊢
    rw [hlater'.answer_eq hname, add_zero_add_zero]

/-- The name has a value before, which is read on the right. Among the lines that follow, two would
assign to the name and define a function of it, but fail; others change what the right side has
read. -/
theorem run_assignment_recalled :
    let t := standard.after ["k = 3", "f(x) = x * k", "a = 1"]
    let later := ["k = 5", "a + ans", "a = 1 / 0", "f(x) = a", "a(x) = (", "pi = 3", "f(k)"]
    (IsName "a".toList ∧ (∀ b ∈ t.vars.entries, b.name = "a" → b.isFinal = false) ∧
      "a" ∉ t.functions.names ∧ '=' ∉ " f(k) - a".toList) ∧
      (t.run " f(k) - a").1 = .ok 8 ∧ (t.run "a= f(k) - a").1 = .ok 0 ∧
      (t.run "a= f(k) - a").2.LeavesAlone "a" later ∧
      (((t.run "a= f(k) - a").2.after later).run "a").1 = .ok 8 := by
  intro t later
  have hname : IsName "a".toList := by decide
  have hopen : ∀ b ∈ t.vars.entries, b.name = "a" → b.isFinal = false := by decide +kernel
  have hfunction : "a" ∉ t.functions.names := by decide +kernel
  have htext : '=' ∉ " f(k) - a".toList := by decide
  have hquery : (t.run " f(k) - a").1 = .ok 8 := by decide +kernel
  have hlater : (t.run "a= f(k) - a").2.LeavesAlone "a" later := by
    constructor
    · decide +kernel
    · decide +kernel
    · intro hresult
      exact absurd hresult (by decide)
  obtain ⟨hanswer, hvalue⟩ := (run_assignment _ _ _ hname hopen hfunction htext).2 8 hquery
  exact ⟨⟨hname, hopen, hfunction, htext⟩, hquery, hanswer, hlater, hvalue later hlater⟩

end SymbolTable

end Calculator
