import Calculator.Proofs.Expr.Value

/-!
# The names in an expression

A tree is evaluated by looking up its variables and by calling its functions, also in the arguments
of calls. So its value depends on nothing else in the table, and a fault comes from one of its
nodes: from a variable, from a call, from the body of a built-in function outside of all calls, or
from an operation.

* `Expr.vars`, `Expr.callees`, `Expr.builtins`: the names in a tree.
* `Expr.exists_call_of_evalWith`: a tree has a value only if every call in it has one.
* `Expr.evalWith_congr`: the value depends on what the names in the tree stand for.
* `Expr.Origin`, `Expr.origin_of_evalWith`: where a fault comes from.
-/

namespace Calculator.Expr

/-- The variables of a tree, also those in the arguments of calls. -/
@[simp] def vars : Expr → List String
  | number _ => []
  | var name => [name]
  | binary _ lhs rhs => lhs.vars ++ rhs.vars
  | factorial operand => operand.vars
  | call _ argument => argument.vars
  | builtin _ _ => []

/-- The functions that a tree calls, also in the arguments of calls. -/
@[simp] def callees : Expr → List String
  | number _ => []
  | var _ => []
  | binary _ lhs rhs => lhs.callees ++ rhs.callees
  | factorial operand => operand.callees
  | call function argument => function :: argument.callees
  | builtin _ _ => []

/-- The built-in functions whose bodies stand in a tree. -/
@[simp] def builtins : Expr → List String
  | number _ => []
  | var _ => []
  | binary _ lhs rhs => lhs.builtins ++ rhs.builtins
  | factorial operand => operand.builtins
  | call _ argument => argument.builtins
  | builtin name _ => [name]

variable {t t' : SymbolTable} {argument? : Option Float}
  {call call' : String → Float → Except Fault Float} {e e' : Expr} {f : Fault}

/-! ## Values -/

theorem exists_call_of_evalWith {value : Float} {g : String}
    (h : e.evalWith t argument? call = .ok value) (hg : g ∈ e.callees) :
    ∃ x y, call g x = .ok y := by
  induction e generalizing value with
  | number | var | builtin => exact absurd hg List.not_mem_nil
  | binary op lhs rhs ihl ihr =>
    obtain ⟨x, y, hl, hr, _⟩ := evalWith_binary_eq_ok_iff.1 h
    rcases List.mem_append.1 hg with hg | hg
    · exact ihl hl hg
    · exact ihr hr hg
  | factorial operand ih =>
    obtain ⟨x, hx, _⟩ := evalWith_factorial_eq_ok_iff.1 h
    exact ih hx hg
  | call function argument ih =>
    obtain ⟨x, hx, hvalue⟩ := evalWith_call_eq_ok_iff.1 h
    rcases List.mem_cons.1 hg with rfl | hg
    · exact ⟨x, value, hvalue⟩
    · exact ih hx hg

/-- A tree comes out alike, value or fault, wherever its variables and its calls do. -/
theorem evalWith_congr
    (hvars : ∀ name ∈ e.vars, t.lookup argument? name = t'.lookup argument? name)
    (hcallees : ∀ g ∈ e.callees, ∀ x, call g x = call' g x) :
    e.evalWith t argument? call = e.evalWith t' argument? call' := by
  induction e with
  | number | builtin => rfl
  | var name => exact hvars name List.mem_cons_self
  | binary op lhs rhs ihl ihr =>
    rw [vars, List.forall_mem_append] at hvars
    rw [callees, List.forall_mem_append] at hcallees
    simp [ihl hvars.1 hcallees.1, ihr hvars.2 hcallees.2]
  | factorial operand ih => simp [ih hvars hcallees]
  | call function argument ih =>
    rw [callees, List.forall_mem_cons] at hcallees
    simp [ih hvars hcallees.2, funext hcallees.1]

/-! ## Faults -/

/-- The node of a tree that a fault comes from. -/
inductive Origin (t : SymbolTable) (argument? : Option Float)
    (call : String → Float → Except Fault Float) (e : Expr) (f : Fault) : Prop where
  | name (name : String) (hname : name ∈ e.vars) (h : t.lookup argument? name = .error f)
  | call (g : String) (x : Float) (hg : g ∈ e.callees) (h : call g x = .error f)
  | body (name : String) (hname : name ∈ e.builtins) (hnone : argument? = none)
      (h : f = .unboundArgument name)
  | operation (h : f.kind = .arithmetic)

/-- A fault that comes from a part of a tree comes from the tree. -/
theorem Origin.mono (h : Origin t argument? call e f) (hvars : e.vars ⊆ e'.vars)
    (hcallees : e.callees ⊆ e'.callees) (hbuiltins : e.builtins ⊆ e'.builtins) :
    Origin t argument? call e' f := by
  cases h with
  | name n hn h => exact .name n (hvars hn) h
  | call g x hg h => exact .call g x (hcallees hg) h
  | body n hn hnone h => exact .body n (hbuiltins hn) hnone h
  | operation h => exact .operation h

theorem origin_of_evalWith (h : e.evalWith t argument? call = .error f) :
    Origin t argument? call e f := by
  induction e with
  | number value => cases h
  | var name => exact .name name List.mem_cons_self h
  | builtin name function =>
    cases argument? with
    | none =>
      cases h
      exact .body name List.mem_cons_self rfl rfl
    | some x => cases h
  | binary op lhs rhs ihl ihr =>
    rcases evalWith_binary_eq_error_iff.1 h with hl | ⟨x, _, hr | ⟨y, _, happly⟩⟩
    · exact (ihl hl).mono (List.subset_append_left _ _) (List.subset_append_left _ _)
        (List.subset_append_left _ _)
    · exact (ihr hr).mono (List.subset_append_right _ _) (List.subset_append_right _ _)
        (List.subset_append_right _ _)
    · exact .operation (kind_of_apply_error happly)
  | factorial operand ih =>
    rcases evalWith_factorial_eq_error_iff.1 h with hoperand | ⟨x, _, hfactorial⟩
    · exact (ih hoperand).mono (List.Subset.refl _) (List.Subset.refl _) (List.Subset.refl _)
    · exact .operation (kind_of_factorial_error hfactorial)
  | call function argument ih =>
    rcases evalWith_call_eq_error_iff.1 h with hargument | ⟨x, _, hcall⟩
    · exact (ih hargument).mono (List.Subset.refl _) (List.subset_cons_self _ _)
        (List.Subset.refl _)
    · exact .call function x List.mem_cons_self hcall

end Calculator.Expr
