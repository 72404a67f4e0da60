import Calculator.Arithmetic.Factorial
import Calculator.SymbolTable.Basic

/-!
# The value of an expression

Operands are evaluated from left to right, and the first fault ends the evaluation. A call
evaluates its argument where the call stands and then the body of the function with `x` as the
name of the argument. Calls may nest `maxCalls` deep: `SymbolTable.call` runs on the number of
calls that may still be opened, and `Expr.evalWith` on the tree.

* `SymbolTable.evaluate`: the value of an expression, alone or in the frame of a call.
-/

namespace Calculator

/-- The most calls that may be open at a time (expr header:76, `kMaxCallDepth`). -/
def maxCalls : Nat := 64

/-- The call that an expression is evaluated in: its argument, and the number of calls that are
open, this one included (expr header:66-70, `Frame`). -/
structure Frame where
  argument : Float
  depth : Int
deriving DecidableEq, Repr

/-- The value of a name: in a call, that of the argument if the name is `x`, and otherwise that of
the variable (expr:94-97, `Evaluator`). -/
def SymbolTable.lookup (table : SymbolTable) (argument? : Option Float) (name : String) :
    Except Fault Float :=
  match if name = argumentName then argument? else none with
  | some x => .ok x
  | none => (table.getVariable name).map Binding.value

/-- The value of an expression, given the argument of the call around it, if there is one, and
what a call yields (expr:88-128, `Evaluator`). -/
def Expr.evalWith (table : SymbolTable) (argument? : Option Float)
    (call : String → Float → Except Fault Float) : Expr → Except Fault Float
  | number value => .ok value
  | var name => table.lookup argument? name
  | binary op lhs rhs => do
    let x ← lhs.evalWith table argument? call
    let y ← rhs.evalWith table argument? call
    op.apply x y
  | factorial operand => do
    let x ← operand.evalWith table argument? call
    Calculator.factorial x
  | .call function argument => do
    let x ← argument.evalWith table argument? call
    call function x
  | builtin name function =>
    match argument? with
    | some x => .ok (function x)
    | none => .error (.unboundArgument name)

namespace SymbolTable

/-- The value of a function for an argument, when `calls` calls may still be opened (expr:115-121,
`Evaluator`). -/
def call (table : SymbolTable) : (calls : Nat) → String → Float → Except Fault Float
  | 0, name, _ => .error (.tooManyCalls name)
  | calls + 1, name, x => do
    let function ← table.getFunction name
    function.value.evalWith table (some x) (table.call calls)

/-- The number of calls that may still be opened in a frame. -/
def callsLeft : Option Frame → Nat
  | none => maxCalls
  | some frame => (maxCalls - frame.depth).toNat

/-- The value of an expression, in the frame of a call if there is one (expr:153-155,
`evaluate`). -/
def evaluate (table : SymbolTable) (e : Expr) (frame? : Option Frame) : Except Fault Float :=
  e.evalWith table (frame?.map Frame.argument) (table.call (callsLeft frame?))

end SymbolTable

end Calculator
