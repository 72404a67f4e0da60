import Calculator.Arithmetic.Builtin
import Calculator.Arithmetic.Operator
import Calculator.Decimal.Display

/-!
# Expressions

An expression is a tree of numbers, named variables, operators, factorials and calls. The body of
a built-in function is a tree of its own kind, which applies the function to the argument at hand.
Any function of a number can be built in.

* `Expr.render`: the text of a tree, with a bracket around each operation, so that it shows the
  tree and not the line it was read from.
-/

namespace Calculator

/-- The name under which the body of a function sees its argument (expr header:73,
`kArgumentName`). -/
def argumentName : String := "x"

/-- An expression (expr header:23-55, `Expr`). -/
inductive Expr where
  | number (value : Float)
  | var (name : String)
  | binary (op : Operator) (lhs rhs : Expr)
  | factorial (operand : Expr)
  | call (function : String) (argument : Expr)
  /-- The body of the built-in function that is listed as `name`. -/
  | builtin (name : String) (function : Float → Float)
deriving Inhabited

namespace Expr

/-- The text of an expression, with a bracket around each operation (expr:130-159, `debug`). A NaN
in it, which no numeral stands for, is shown with the given sign. -/
def render (e : Expr) (nanSign : Bool := false) : String :=
  match e with
  | number value => displayNumber value nanSign
  | var name => name
  | binary op lhs rhs =>
    "(" ++ lhs.render nanSign ++ op.symbol.toString ++ rhs.render nanSign ++ ")"
  | factorial operand => "(" ++ operand.render nanSign ++ "!)"
  | call function argument => function ++ "(" ++ argument.render nanSign ++ ")"
  | builtin name _ => name ++ "(" ++ argumentName ++ ")"

end Expr

end Calculator
