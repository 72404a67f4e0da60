import Calculator.Expr.Eval

/-!
# When an expression has a value

An operation has a value if its operands have values to which it can be applied. Otherwise the first
fault among the operands, from left to right, is that of the operation, or else it is the fault of
the operation itself. These are the rules of evaluation as equivalences, to be used in place of the
definition of `Expr.evalWith`.

* `Expr.evalWith_binary_eq_ok_iff` and the like: the outcomes of each kind of node.
* `Expr.kind_of_lookup_error` and the like: which stage finds a fault of a node.
-/

namespace Calculator

namespace Expr

variable {t : SymbolTable} {argument? : Option Float} {call : String → Float → Except Fault Float}
  {value : Float} {f : Fault}

/-! ## The equations of evaluation -/

section Equations

variable (t : SymbolTable) (argument? : Option Float) (call : String → Float → Except Fault Float)

@[simp] theorem evalWith_number (x : Float) : (number x).evalWith t argument? call = .ok x := rfl

@[simp] theorem evalWith_var (name : String) :
    (var name).evalWith t argument? call = t.lookup argument? name := rfl

@[simp] theorem evalWith_binary (op : Operator) (lhs rhs : Expr) :
    (binary op lhs rhs).evalWith t argument? call = (do
      let x ← lhs.evalWith t argument? call
      let y ← rhs.evalWith t argument? call
      op.apply x y) := rfl

@[simp] theorem evalWith_factorial (operand : Expr) :
    (factorial operand).evalWith t argument? call =
      (operand.evalWith t argument? call >>= Calculator.factorial) := rfl

@[simp] theorem evalWith_call (function : String) (argument : Expr) :
    (Expr.call function argument).evalWith t argument? call =
      (argument.evalWith t argument? call >>= call function) := rfl

@[simp] theorem evalWith_builtin (name : String) (function : Float → Float) :
    (builtin name function).evalWith t argument? call =
      argument?.elim (.error (.unboundArgument name)) fun x => .ok (function x) := by
  cases argument? <;> rfl

end Equations

/-! ## Values -/

theorem evalWith_binary_eq_ok_iff {op : Operator} {lhs rhs : Expr} :
    (binary op lhs rhs).evalWith t argument? call = .ok value ↔
      ∃ x y, lhs.evalWith t argument? call = .ok x ∧ rhs.evalWith t argument? call = .ok y ∧
        op.apply x y = .ok value := by
  simp only [evalWith_binary, bind_eq_ok_iff, exists_and_left]

theorem evalWith_factorial_eq_ok_iff {operand : Expr} :
    (factorial operand).evalWith t argument? call = .ok value ↔
      ∃ x, operand.evalWith t argument? call = .ok x ∧ Calculator.factorial x = .ok value := by
  rw [evalWith_factorial, bind_eq_ok_iff]

theorem evalWith_call_eq_ok_iff {function : String} {argument : Expr} :
    (Expr.call function argument).evalWith t argument? call = .ok value ↔
      ∃ x, argument.evalWith t argument? call = .ok x ∧ call function x = .ok value := by
  rw [evalWith_call, bind_eq_ok_iff]

/-! ## Faults -/

theorem evalWith_binary_eq_error_iff {op : Operator} {lhs rhs : Expr} :
    (binary op lhs rhs).evalWith t argument? call = .error f ↔
      lhs.evalWith t argument? call = .error f ∨
      ∃ x, lhs.evalWith t argument? call = .ok x ∧
        (rhs.evalWith t argument? call = .error f ∨
        ∃ y, rhs.evalWith t argument? call = .ok y ∧ op.apply x y = .error f) := by
  simp only [evalWith_binary, bind_eq_error_iff]

theorem evalWith_factorial_eq_error_iff {operand : Expr} :
    (factorial operand).evalWith t argument? call = .error f ↔
      operand.evalWith t argument? call = .error f ∨
      ∃ x, operand.evalWith t argument? call = .ok x ∧ Calculator.factorial x = .error f := by
  rw [evalWith_factorial, bind_eq_error_iff]

theorem evalWith_call_eq_error_iff {function : String} {argument : Expr} :
    (Expr.call function argument).evalWith t argument? call = .error f ↔
      argument.evalWith t argument? call = .error f ∨
      ∃ x, argument.evalWith t argument? call = .ok x ∧ call function x = .error f := by
  rw [evalWith_call, bind_eq_error_iff]

theorem kind_of_lookup_error {name : String} (h : t.lookup argument? name = .error f) :
    f.kind = .lookup := by
  unfold SymbolTable.lookup SymbolTable.getVariable at h
  split at h
  · cases h
  · split at h <;> cases h
    rfl

theorem kind_of_apply_error {op : Operator} {x y : Float} (h : op.apply x y = .error f) :
    f.kind = .arithmetic := by
  cases op with
  | div =>
    rw [Operator.apply] at h
    split at h <;> cases h
    rfl
  | _ => cases h

theorem kind_of_factorial_error {x : Float} (h : Calculator.factorial x = .error f) :
    f.kind = .arithmetic := by
  unfold Calculator.factorial at h
  split at h
  · cases h
  · split at h
    · cases h
      rfl
    · cases h
    · split at h <;> cases h
      rfl

end Expr

end Calculator
