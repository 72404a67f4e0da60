import Calculator.Proofs.Expr.CallChain
import Calculator.Proofs.SymbolTable.Writes
import Mathlib.Control.Monad.Basic

/-!
# Calls as substitution

The argument of a call is evaluated first, and the body of the function then sees nothing of it but
its value. So the body might as well be written out for that value: with the number in the place of
`x`, and with its image in the place of the body of a built-in function. What is written out in this
way has no use for the argument of the call that it is evaluated in, and neither have the calls in
it, however deep they nest. Of the call there remains that it is open.

* `Expr.subst`: a body, written out for an argument.
* `Expr.evalWith_subst`: written out or not, a body has the same value or fault.
* `Expr.argumentName_not_mem_vars_subst`, `Expr.builtins_subst`: nothing of the argument is left.
* `SymbolTable.evaluate_call_eq_subst`: a call is its body, written out for the value of its
  argument.
-/

namespace Calculator

namespace Expr

/-- The tree with a number in the place of the argument: where `x` stands, also in the arguments of
calls, and where a built-in function is applied to it. -/
@[simp] def subst (value : Float) : Expr → Expr
  | number v => number v
  | var name => if name = argumentName then number value else var name
  | binary op lhs rhs => binary op (lhs.subst value) (rhs.subst value)
  | factorial operand => factorial (operand.subst value)
  | call function argument => call function (argument.subst value)
  | builtin _ function => number (function value)

variable {t : SymbolTable} {value : Float}

/-! ## What is left of the argument -/

theorem argumentName_not_mem_vars_subst (e : Expr) (value : Float) :
    argumentName ∉ (e.subst value).vars := by
  induction e with
  | number | builtin => exact List.not_mem_nil
  | var name =>
    rw [subst]
    split_ifs with hname
    · exact List.not_mem_nil
    · simp [Ne.symm hname]
  | binary op lhs rhs ihl ihr => simp [ihl, ihr]
  | factorial operand ih => exact ih
  | call function argument ih => exact ih

@[simp] theorem builtins_subst (e : Expr) (value : Float) : (e.subst value).builtins = [] := by
  induction e with
  | number | builtin => rfl
  | var name =>
    rw [subst]
    split_ifs <;> rfl
  | binary op lhs rhs ihl ihr => simp [ihl, ihr]
  | factorial operand ih => exact ih
  | call function argument ih => exact ih

/-! ## The value of what is written out -/

@[simp] theorem lookup_argumentName : t.lookup (some value) argumentName = .ok value := by
  unfold SymbolTable.lookup
  rw [if_pos rfl]

theorem lookup_of_ne {name : String} (h : name ≠ argumentName)
    (argument? argument?' : Option Float) :
    t.lookup argument? name = t.lookup argument?' name := by
  unfold SymbolTable.lookup
  rw [if_neg h, if_neg h]

/-- In any call, and outside of all calls, a tree that is written out for a value comes out as the
tree itself does in a call with that value as its argument. -/
theorem evalWith_subst (e : Expr) (value : Float) (argument? : Option Float)
    (call : String → Float → Except Fault Float) :
    (e.subst value).evalWith t argument? call = e.evalWith t (some value) call := by
  induction e with
  | number | builtin => rfl
  | var name =>
    by_cases hname : name = argumentName
    · simp [hname]
    · simp [hname, lookup_of_ne hname argument? (some value)]
  | binary op lhs rhs ihl ihr => simp [ihl, ihr]
  | factorial operand ih | call function operand ih => simp [ih]

end Expr

namespace SymbolTable

variable {t : SymbolTable} {frame? : Option Frame} {e argument : Expr} {value : Float}

/-! ## Calls -/

/-- In the frame of a call that is opened, one call less may be opened. -/
theorem callsLeft_eq_succ {callee : Frame} (hdepth : openCalls frame? < maxCalls)
    (hcallee : callee.depth = openCalls frame? + 1) :
    callsLeft frame? = callsLeft (some callee) + 1 := by
  rw [callsLeft_eq, callsLeft_eq, openCalls_some, hcallee]
  omega

/-- What a call yields is what its body does in the frame that the call opens. -/
theorem evaluate_call {body : Binding Expr} {depth : Int} (hbody : body ∈ t.functions.entries)
    (hdepth : openCalls frame? < maxCalls) (hcallee : depth = openCalls frame? + 1)
    (hvalue : t.evaluate argument frame? = .ok value) :
    t.evaluate (.call body.name argument) frame? =
      t.evaluate body.value (some ⟨value, depth⟩) := by
  have hfind : t.functions.find? body.name = some body := Bindings.find?_eq_some_iff.2 ⟨hbody, rfl⟩
  have hleft : callsLeft frame? = callsLeft (some ⟨value, depth⟩) + 1 :=
    callsLeft_eq_succ hdepth hcallee
  unfold evaluate at hvalue ⊢
  rw [Expr.evalWith_call, hvalue, ok_bind, hleft, call_succ hfind]
  rfl

theorem evaluate_subst (e : Expr) (value : Float) (frame : Frame) :
    t.evaluate (e.subst value) (some frame) = t.evaluate e (some ⟨value, frame.depth⟩) := by
  simp [evaluate, callsLeft_eq, Expr.evalWith_subst]

/-- A call is substitution by value. If its argument has a value, and one more call may be opened,
then the call has the value or the fault of the body of its function, written out for the value of
the argument, in every frame in which as many calls are open as in that of the call. The argument of
that frame makes no difference, to the body and to all the calls in it: neither `x` nor the body of
a built-in function occurs in what is written out. -/
theorem evaluate_call_eq_subst (t : SymbolTable) (body : Binding Expr)
    (hbody : body ∈ t.functions.entries) (argument : Expr) (frame? : Option Frame)
    (hdepth : openCalls frame? < maxCalls) (value : Float)
    (hvalue : t.evaluate argument frame? = .ok value) :
    (∀ frame : Frame, frame.depth = openCalls frame? + 1 →
      t.evaluate (.call body.name argument) frame? =
        t.evaluate (body.value.subst value) (some frame)) ∧
    argumentName ∉ (body.value.subst value).vars ∧ (body.value.subst value).builtins = [] := by
  refine ⟨?_, body.value.argumentName_not_mem_vars_subst value, body.value.builtins_subst value⟩
  intro frame hframe
  rw [evaluate_call hbody hdepth hframe hvalue, evaluate_subst]

/-- In a call with the argument five, at which three calls are open, `f` is called with six. Its
body calls `g` twice, one call in the argument of the other, and reads its own argument after
that. -/
theorem evaluate_call_eq_subst_nested :
    let twice : Expr := .binary .mul (.var "x") (.number 2)
    let nested : Expr := .binary .add (.call "g" (.call "g" (.var "x"))) (.var "x")
    let t := empty.afterWrites [.setFunction "g" twice, .setFunction "f" nested]
    let next : Expr := .binary .add (.var "x") (.number 1)
    (⟨"f", nested, false⟩ ∈ t.functions.entries ∧ openCalls (some ⟨5, 3⟩) < maxCalls ∧
      t.evaluate next (some ⟨5, 3⟩) = .ok 6) ∧
      t.evaluate (.call "f" next) (some ⟨5, 3⟩) =
        t.evaluate (nested.subst 6) (some ⟨-1, 4⟩) ∧
      t.evaluate (.call "f" next) (some ⟨5, 3⟩) = .ok 30 := by
  intro twice nested t next
  have hbody : ⟨"f", nested, false⟩ ∈ t.functions.entries := .tail _ (.head _)
  have hdepth : openCalls (some ⟨5, 3⟩) < maxCalls := by decide
  have hvalue : t.evaluate next (some ⟨5, 3⟩) = .ok 6 := by decide +kernel
  obtain ⟨hcall, _, _⟩ := evaluate_call_eq_subst t _ hbody next (some ⟨5, 3⟩) hdepth 6 hvalue
  exact ⟨⟨hbody, hdepth, hvalue⟩, hcall ⟨-1, 4⟩ rfl, by decide +kernel⟩

end SymbolTable

end Calculator
