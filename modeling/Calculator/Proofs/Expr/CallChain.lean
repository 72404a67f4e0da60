import Calculator.Proofs.Expr.Names

/-!
# Chains of calls

A tree calls a function, the body of that function calls a second one, and so on: that is a chain of
calls. Every node of a tree is evaluated, so each chain is followed to its end, or until a fault
ends the evaluation. A chain of more functions than calls may still be opened is never followed to
its end, and without such a chain there are never too many calls.

* `Expr.exists_call_of_recursion`: that there are too many calls is found by a call in the tree.
* `SymbolTable.CallChain`, `SymbolTable.Reaches`: the chains of calls, and where they lead.
* `SymbolTable.evaluate_callChain`: the limit on open calls, in terms of chains.
-/

namespace Calculator

/-! ## Where too many calls are found -/

theorem Expr.exists_call_of_recursion {t : SymbolTable} {argument? : Option Float}
    {call : String → Float → Except Fault Float} {e : Expr} {f : Fault}
    (hf : f.kind = .recursion) (h : e.evalWith t argument? call = .error f) :
    ∃ g ∈ e.callees, ∃ x, call g x = .error f := by
  cases origin_of_evalWith h with
  | call g x hg hcall => exact ⟨g, hg, x, hcall⟩
  | name _ _ hlookup =>
    rw [kind_of_lookup_error hlookup] at hf
    cases hf
  | body _ _ _ hbody =>
    rw [hbody] at hf
    cases hf
  | operation hkind =>
    rw [hkind] at hf
    cases hf

namespace SymbolTable

variable {t : SymbolTable} {e : Expr} {g : String} {body : Binding Expr} {names : List String}

/-! ## Chains -/

/-- The tree calls the first function, and the body of each function calls the next one. -/
inductive CallChain (t : SymbolTable) : Expr → List String → Prop where
  | last {e : Expr} {g : String} (hg : g ∈ e.callees) : CallChain t e [g]
  | step {e : Expr} {g : String} {body : Binding Expr} {names : List String} (hg : g ∈ e.callees)
      (hbody : t.functions.find? g = some body) (h : CallChain t body.value names) :
      CallChain t e (g :: names)

/-- A chain of calls leads from the tree to the function. -/
def Reaches (t : SymbolTable) (e : Expr) (g : String) : Prop :=
  ∃ names, t.CallChain e (names ++ [g])

theorem CallChain.length_pos (h : t.CallChain e names) : 0 < names.length := by
  cases h with
  | last => exact Nat.one_pos
  | step => exact Nat.succ_pos _

/-- A chain goes on with those of the body of its last function. -/
theorem CallChain.append {names' : List String} (h : t.CallChain e (names ++ [g]))
    (hbody : t.functions.find? g = some body) (h' : t.CallChain body.value names') :
    t.CallChain e (names ++ g :: names') := by
  induction names generalizing e with
  | nil =>
    cases h with
    | last hg => exact .step hg hbody h'
    | step _ _ hrest => exact absurd hrest.length_pos (Nat.lt_irrefl 0)
  | cons first names ih =>
    generalize hrest : names ++ [g] = rest at ih
    rw [List.cons_append, hrest] at h
    cases h with
    | last => exact absurd hrest (by simp)
    | step hfirst hbody' h => exact .step hfirst hbody' (ih h)

/-- A function that reaches itself is the beginning of chains of any length. -/
theorem exists_callChain_of_reaches (hbody : t.functions.find? g = some body)
    (hself : t.Reaches body.value g) (n : Nat) :
    ∃ names, t.CallChain body.value names ∧ n < names.length := by
  obtain ⟨round, hround⟩ := hself
  induction n with
  | zero => exact ⟨round ++ [g], hround, hround.length_pos⟩
  | succ n ih =>
    obtain ⟨names, hnames, hlength⟩ := ih
    refine ⟨round ++ g :: names, hround.append hbody hnames, ?_⟩
    rw [List.length_append, List.length_cons]
    omega

/-! ## Calls and chains -/

@[simp] theorem call_zero (g : String) (x : Float) : t.call 0 g x = .error (.tooManyCalls g) := rfl

theorem call_succ (hbody : t.functions.find? g = some body) (n : Nat) (x : Float) :
    t.call (n + 1) g x = body.value.evalWith t (some x) (t.call n) := by
  simp [call, getFunction_eq_ok_iff.2 hbody]

theorem call_succ_of_none (h : t.functions.find? g = none) (n : Nat) (x : Float) :
    t.call (n + 1) g x = .error (.unknownFunction g) := by
  simp [call, getFunction, h]

/-- Where a chain is longer than the number of calls that may be opened, there is no value. -/
theorem CallChain.evalWith_ne_ok (h : t.CallChain e names) {n : Nat} (hn : n < names.length)
    (argument? : Option Float) (value : Float) :
    e.evalWith t argument? (t.call n) ≠ .ok value := by
  intro hvalue
  induction h generalizing n argument? value with
  | last hg =>
    obtain ⟨x, y, hcall⟩ := Expr.exists_call_of_evalWith hvalue hg
    cases Nat.lt_one_iff.1 hn
    cases hcall
  | step hg hbody hrest ih =>
    obtain ⟨x, y, hcall⟩ := Expr.exists_call_of_evalWith hvalue hg
    cases n with
    | zero => cases hcall
    | succ n =>
      rw [call_succ hbody] at hcall
      exact ih (Nat.lt_of_succ_lt_succ hn) (some x) y hcall

/-- Where too many calls are opened, a chain is longer than the number that may be. -/
theorem exists_callChain_of_recursion {n : Nat} {argument? : Option Float} {f : Fault}
    (hf : f.kind = .recursion) (h : e.evalWith t argument? (t.call n) = .error f) :
    ∃ names, t.CallChain e names ∧ n < names.length := by
  induction n generalizing e argument? with
  | zero =>
    obtain ⟨g, hg, _⟩ := Expr.exists_call_of_recursion hf h
    exact ⟨[g], .last hg, Nat.one_pos⟩
  | succ n ih =>
    obtain ⟨g, hg, x, hcall⟩ := Expr.exists_call_of_recursion hf h
    cases hfind : t.functions.find? g with
    | none =>
      rw [call_succ_of_none hfind] at hcall
      cases hcall
      cases hf
    | some body =>
      rw [call_succ hfind] at hcall
      obtain ⟨names, hnames, hlength⟩ := ih hcall
      exact ⟨g :: names, .step hg hfind hnames, Nat.succ_lt_succ hlength⟩

/-! ## The limit -/

/-- The number of calls that are open in a frame, none outside of all calls. -/
def openCalls : Option Frame → Int
  | none => 0
  | some frame => frame.depth

@[simp] theorem openCalls_some (frame : Frame) : openCalls (some frame) = frame.depth := rfl

theorem callsLeft_eq (frame? : Option Frame) :
    callsLeft frame? = (maxCalls - openCalls frame?).toNat := by
  cases frame? <;> rfl

theorem callsLeft_lt_iff {frame? : Option Frame} {k : Nat} (hk : 0 < k) :
    callsLeft frame? < k ↔ maxCalls < openCalls frame? + k := by
  rw [callsLeft_eq]
  omega

theorem exists_evaluate_eq_error (e : Expr) {frame? : Option Frame}
    (h : ∀ value, t.evaluate e frame? ≠ .ok value) : ∃ f, t.evaluate e frame? = .error f := by
  cases hvalue : t.evaluate e frame? with
  | ok value => exact absurd hvalue (h value)
  | error f => exact ⟨f, rfl⟩

/-- The limit on open calls is exact on the graph of calls. A tree from which a chain of calls leads
past the limit has no value, whatever other faults there are; in particular, one that reaches a
function which reaches itself. And whenever too many calls are found, there is such a chain. -/
theorem evaluate_callChain (t : SymbolTable) (e : Expr) (frame? : Option Frame) :
    (∀ names, t.CallChain e names → maxCalls < openCalls frame? + names.length →
      ∃ f, t.evaluate e frame? = .error f) ∧
    (∀ g body, t.Reaches e g → t.functions.find? g = some body → t.Reaches body.value g →
      ∃ f, t.evaluate e frame? = .error f) ∧
    ∀ f, t.evaluate e frame? = .error f → f.kind = .recursion →
      ∃ names, t.CallChain e names ∧ maxCalls < openCalls frame? + names.length := by
  have hlong : ∀ names, t.CallChain e names → callsLeft frame? < names.length →
      ∃ f, t.evaluate e frame? = .error f := fun names hnames hlength =>
    exists_evaluate_eq_error e fun value => hnames.evalWith_ne_ok hlength _ value
  refine ⟨?_, ?_, ?_⟩
  · intro names hnames hlength
    exact hlong names hnames ((callsLeft_lt_iff hnames.length_pos).2 hlength)
  · rintro g body ⟨names, hnames⟩ hbody hself
    obtain ⟨names', hnames', hlength⟩ := exists_callChain_of_reaches hbody hself (callsLeft frame?)
    refine hlong _ (hnames.append hbody hnames') ?_
    rw [List.length_append, List.length_cons]
    omega
  · intro f hf hkind
    obtain ⟨names, hnames, hlength⟩ := exists_callChain_of_recursion hkind hf
    exact ⟨names, hnames, (callsLeft_lt_iff hnames.length_pos).1 hlength⟩

end SymbolTable

end Calculator
