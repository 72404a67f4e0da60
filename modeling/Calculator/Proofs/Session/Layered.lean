import Calculator.Proofs.Session.Closed
import Calculator.Proofs.Session.History

/-!
# Sessions that redefine no function

A function becomes callable when its body has been read. So it calls functions that were stored
before it, unless a later line gives it another body. In a session in which no line does so, every
chain of calls goes backwards through the list of functions, and is no longer than the list.

* `Redefines`, `NoneRedefined`: the lines that give a function another body, and the lines among
  which none does.
* `IsLayered`: each function calls functions that come before it.
* `IsLayered.run`, `isLayered_after`: one line, and many lines.
* `CallChain.length_le_of_isLayered`: chains of calls go backwards.
* `run_kind_ne_recursion`: as long as there are no more functions than calls may be open, there are
  never too many calls.
-/

namespace Calculator.SymbolTable

open Text

variable {t : SymbolTable} {line : String} {e : Expr}

/-! ## Lines that redefine a function -/

/-- The line gives a function of the table another body: its name with `(x)` behind it stands before
the first equals sign, perhaps between blanks, and the line does not fail. -/
def Redefines (t : SymbolTable) (line : String) : Prop :=
  (∃ name ∈ t.functions.names, ∃ left right, line.toList = left ++ '=' :: right ∧ '=' ∉ left ∧
    trim left = name.toList ++ ['(', 'x', ')']) ∧
    ∃ answer, (t.run line).1 = .ok answer

/-- None of the lines, put to the table one after the other, gives a function another body. -/
def NoneRedefined (t : SymbolTable) : List String → Prop
  | [] => True
  | line :: lines => ¬t.Redefines line ∧ (t.run line).2.NoneRedefined lines

theorem redefines_iff :
    t.Redefines line ↔
      (∃ name ∈ t.functions.names, (Line.ofText line).left? = some (name ++ "(x)")) ∧
        (t.run line).1.isOk := by
  simp only [Line.left?_ofText_eq_some_iff, ← exists_answer_iff, Target.toList_withArgument]
  rfl

instance : Decidable (t.Redefines line) := decidable_of_iff _ redefines_iff.symm

instance decidableNoneRedefined (t : SymbolTable) :
    (lines : List String) → Decidable (t.NoneRedefined lines)
  | [] => isTrue trivial
  | line :: lines =>
    have := decidableNoneRedefined (t.run line).2 lines
    inferInstanceAs (Decidable (_ ∧ _))

/-! ## Functions that call what comes before them -/

/-- The body of each function in the table calls functions that come before it only. -/
def IsLayered (t : SymbolTable) : Prop :=
  ∀ front b back, t.functions.entries = front ++ b :: back →
    ∀ g ∈ b.value.callees, g ∈ front.map Binding.name

theorem isLayered_standard : standard.IsLayered := by
  intro front b back hentries g hg
  have hcallees : ∀ b ∈ standard.functions.entries, b.value.callees = [] := by decide
  have hb : b ∈ standard.functions.entries := by simp [hentries]
  rw [hcallees b hb] at hg
  exact absurd hg List.not_mem_nil

theorem IsLayered.of_functions_eq {t' : SymbolTable} (h : t.IsLayered)
    (hfunctions : t'.functions = t.functions) : t'.IsLayered := by
  unfold IsLayered
  rw [hfunctions]
  exact h

/-- A new function calls functions that are there, and all of these come before it. -/
theorem IsLayered.append {t' : SymbolTable} {b : Binding Expr} (h : t.IsLayered)
    (hentries : t'.functions.entries = t.functions.entries ++ [b]) (hb : t.CallsStored b.value) :
    t'.IsLayered := by
  intro front b' back hsplit g hg
  rw [hentries] at hsplit
  rcases List.eq_nil_or_concat back with rfl | ⟨back, last, rfl⟩
  · obtain ⟨hfront, hlast⟩ := List.append_inj' hsplit rfl
    cases hlast
    rw [← hfront]
    exact hb g hg
  · rw [List.concat_eq_append, ← List.cons_append, ← List.append_assoc] at hsplit
    obtain ⟨hold, _⟩ := List.append_inj' hsplit rfl
    exact h front b' back hold g hg

/-- One line. -/
theorem IsLayered.run (h : t.IsLayered) (hline : ¬t.Redefines line) : (t.run line).2.IsLayered := by
  have houtcome := run_outcome t line
  rw [redefines_iff] at hline
  generalize (t.run line).1 = answer at houtcome hline
  generalize (t.run line).2 = t' at houtcome ⊢
  cases houtcome with
  | refused f => exact h
  | halfRecorded _ _ _ _ _ _ _ _ hbefore =>
    exact h.of_functions_eq (functions_of_putVariable hbefore)
  | recorded _ _ _ _ _ _ _ _ hbefore hresult =>
    exact (h.of_functions_eq (functions_of_putVariable hbefore)).of_functions_eq
      (functions_of_putVariable hresult)
  | variableDefined _ _ _ _ _ _ _ _ hwrite =>
    exact h.of_functions_eq (functions_of_putVariable hwrite)
  | functionDefined left right name body _ htext hleft hright hwrite =>
    obtain ⟨rfl, _⟩ := Target.ofText?_eq_function_iff.1 hleft
    obtain ⟨hassigned, _⟩ := putFunction_eq_ok_iff_assigned.1 hwrite
    cases hassigned with
    | appended _ hafter => exact h.append hafter (callsStored_of_compile hright).1
    | replaced front back old hbefore hname _ _ =>
      have hstored : name ∈ t.functions.names := by
        have hold : old ∈ t.functions.entries := by simp [hbefore]
        exact List.mem_map.2 ⟨old, hold, hname⟩
      exact absurd ⟨⟨name, hstored, by rw [htext]; rfl⟩, rfl⟩ hline

/-- Many lines. -/
theorem isLayered_after (lines : List String) (h : t.IsLayered) (hlines : t.NoneRedefined lines) :
    (t.after lines).IsLayered := by
  induction lines generalizing t with
  | nil => exact h
  | cons line lines ih => exact ih (h.run hlines.1) hlines.2

/-! ## Chains of calls -/

/-- The functions of a chain lie further and further in front. -/
theorem CallChain.length_le_of_isLayered {names : List String} (hchain : t.CallChain e names)
    (h : t.IsLayered) {front back : List (Binding Expr)}
    (hentries : t.functions.entries = front ++ back)
    (hcallees : ∀ g ∈ e.callees, g ∈ front.map Binding.name) : names.length ≤ front.length := by
  induction hchain generalizing front back with
  | last hg =>
    have hmem := hcallees _ hg
    rw [← List.length_map Binding.name]
    exact List.length_pos_of_mem hmem
  | step hg hbody _ ih =>
    obtain ⟨b, hb, rfl⟩ := List.mem_map.1 (hcallees _ hg)
    obtain ⟨before, behind, rfl⟩ := List.append_of_mem hb
    rw [List.append_assoc, List.cons_append] at hentries
    rw [Bindings.find?_of_entries hentries, Option.some.injEq] at hbody
    have hle := ih hentries (hbody ▸ h before b _ hentries)
    rw [List.length_append, List.length_cons, List.length_cons]
    omega

theorem IsLayered.kind_ne_recursion {f : Fault} (h : t.IsLayered) (hcalls : t.CallsStored e)
    (hcount : t.functions.entries.length ≤ maxCalls) (hvalue : t.evaluate e none = .error f) :
    f.kind ≠ .recursion := by
  intro hf
  obtain ⟨names, hchain, hlength⟩ := exists_callChain_of_recursion hf hvalue
  have hle := hchain.length_le_of_isLayered h (List.append_nil _).symm hcalls
  have hlong : maxCalls < names.length := hlength
  omega

/-- In a session in which no line gives a function another body, each function calls functions that
come before it only; and as long as there are no more functions than calls may be open at a time, no
line opens too many calls. -/
theorem run_kind_ne_recursion (lines : List String) (h : standard.NoneRedefined lines) :
    let t := standard.after lines
    t.IsLayered ∧
      (t.functions.entries.length ≤ 64 →
        ∀ line f, (t.run line).1 = .error f → f.kind ≠ .recursion) := by
  intro t
  have hlayered : t.IsLayered := isLayered_after lines isLayered_standard h
  refine ⟨hlayered, ?_⟩
  intro hcount line f herror hf
  have hresult : lastResult ∈ t.vars.names := (standard_isOpen_after lines).1.mem_names
  obtain ⟨_, e, _, hcompile, he⟩ := exists_evaluate_of_run hresult herror hf
  exact hlayered.kind_ne_recursion (callsStored_of_compile hcompile).1 hcount he hf

/-- One function calls another twice, once in the argument of the other call, and a third calls
both. The built-in `sin` cannot be redefined, and a variable shares its name with a function. -/
theorem run_kind_ne_recursion_nested :
    let lines := ["f(x) = sin(x) + 1", "a = f(0)", "sin(x) = x", "g(x) = f(f(x)) * a", "1 / 0",
      "a(x) = g(x) - f(x)"]
    let t := standard.after lines
    (standard.NoneRedefined lines ∧ t.functions.entries.length ≤ 64) ∧ t.IsLayered ∧
      ∀ line f, (t.run line).1 = .error f → f.kind ≠ .recursion := by
  intro lines t
  have hlines : standard.NoneRedefined lines := by decide +kernel
  have hcount : t.functions.entries.length ≤ 64 := by decide +kernel
  obtain ⟨hlayered, hrecursion⟩ := run_kind_ne_recursion lines hlines
  exact ⟨⟨hlines, hcount⟩, hlayered, hrecursion hcount⟩

end Calculator.SymbolTable
