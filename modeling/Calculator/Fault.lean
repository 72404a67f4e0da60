import Calculator.Text

/-!
# Faults

Every way in which a line can fail, as a cause with the text it concerns.

* `Fault.kind` sorts the causes by the stage that finds them.
* `Fault.message` is the one place where a cause is put into words.
* `Fault.shown` is what is seen of these words.
* `bind_eq_ok_iff`, `map_eq_ok_iff` and the like: the two outcomes of one step after another.
-/

namespace Calculator

/-- The stage of the calculator that finds a fault. -/
inductive Fault.Kind where
  /-- The text holds a character that begins no token (`TokeniseError`). -/
  | lexical
  /-- The tokens do not form an expression, or the line is no assignment (`SyntaxError`). -/
  | grammar
  /-- A name has no value, or no function, behind it (`SymbolLookupError`). -/
  | lookup
  /-- A final entry of the symbol table would be changed (`SymbolMutationError`). -/
  | mutation
  /-- An operation has no result for its operands (`ArithmeticError`). -/
  | arithmetic
  /-- Calls nest too deeply (`RecursionLimitError`). -/
  | recursion
deriving DecidableEq, Repr

/-- The cause of a failure. -/
inductive Fault where
  /-- No token begins the text `rest` (lexer:77). -/
  | unknownToken (rest : String)
  /-- There are no tokens at all (parser:186). -/
  | emptyExpression
  /-- The tokens end where an expression should begin (parser:61). -/
  | expectedExpression
  /-- An expression cannot begin with this token (parser:63). -/
  | cannotStart (text : String)
  /-- This token follows an operand and is no operator (parser:114). -/
  | expectedOperator (text : String)
  /-- The tokens end where an operand should begin (parser:131). -/
  | missingOperand
  /-- An operand cannot begin with this token (parser:155). -/
  | unexpectedOperand (text : String)
  /-- A bracket is not closed, or a closing bracket is left over (parser:161, 188). -/
  | unmatchedBrackets
  /-- The name of a function is not followed by a bracketed argument (parser:169). -/
  | invalidCall (name : String)
  /-- The expression opens more levels than a reader may (parser:45). -/
  | tooDeeplyNested
  /-- The text before the equals sign names nothing that can be defined (engine:59). -/
  | unknownAssignment
  /-- No variable has this name (symbols:73). -/
  | unknownVariable (name : String)
  /-- No function has this name (symbols:79). -/
  | unknownFunction (name : String)
  /-- The argument of the built-in function `name` is asked for outside a call (expr:125). -/
  | unboundArgument (name : String)
  /-- The entry of this name is final (symbols:41, symbols header:30). -/
  | cannotModify (name : String)
  /-- The divisor is zero or too close to it (expr:78). -/
  | divisionByZero
  /-- The factorial of a number that is not whole (expr:64). -/
  | fractionalFactorial
  /-- The call to `name` is nested more deeply than calls may be (expr:116). -/
  | tooManyCalls (name : String)
deriving DecidableEq, Repr

namespace Fault

/-- The stage that finds the fault. -/
def kind : Fault → Kind
  | unknownToken _ => .lexical
  | emptyExpression => .grammar
  | expectedExpression => .grammar
  | cannotStart _ => .grammar
  | expectedOperator _ => .grammar
  | missingOperand => .grammar
  | unexpectedOperand _ => .grammar
  | unmatchedBrackets => .grammar
  | invalidCall _ => .grammar
  | tooDeeplyNested => .grammar
  | unknownAssignment => .grammar
  | unknownVariable _ => .lookup
  | unknownFunction _ => .lookup
  | unboundArgument _ => .lookup
  | cannotModify _ => .mutation
  | divisionByZero => .arithmetic
  | fractionalFactorial => .arithmetic
  | tooManyCalls _ => .recursion

/-- The sentence that reports the fault, with the text it concerns as a whole. -/
def message : Fault → String
  | unknownToken rest => "Unknown token at '" ++ rest ++ "'"
  | emptyExpression => "Empty expression"
  | expectedExpression => "Expected an expression"
  | cannotStart text => "Expression cannot start with " ++ text
  | expectedOperator text => "Expected an operator before " ++ text
  | missingOperand => "Binary operator requires two operands"
  | unexpectedOperand text => "Unexpected operand " ++ text
  | unmatchedBrackets => "Unmatched brackets"
  | invalidCall name => "Invalid function call to " ++ name
  | tooDeeplyNested => "Expression too deeply nested"
  | unknownAssignment => "Unknown assignment"
  | unknownVariable name => name ++ " is not a stored variable"
  | unknownFunction name => name ++ " is not a stored function"
  | unboundArgument name => "x is not bound outside a call to " ++ name
  | cannotModify name => "Cannot modify " ++ name
  | divisionByZero => "Cannot divide by zero"
  | fractionalFactorial => "Factorial requires a whole number"
  | tooManyCalls name => "Too many nested calls to " ++ name

/-- The sentence as it is seen by whoever catches the fault: a U+0000 in the text that it concerns
ends it (`what`). -/
def shown (f : Fault) : String := String.ofList (Text.untilNull f.message.toList)

end Fault

/-! ## One step after another -/

section Bind

variable {α β : Type} {x : Except Fault α} {k : α → Except Fault β} {g : α → β} {b : β} {f : Fault}

@[simp] theorem ok_bind (a : α) (k : α → Except Fault β) : (Except.ok a >>= k) = k a := by
  simp only [bind, Except.bind]

@[simp] theorem error_bind (f : Fault) (k : α → Except Fault β) :
    (Except.error f >>= k) = .error f := by
  simp only [bind, Except.bind]

@[simp] theorem ok_map (a : α) (g : α → β) :
    (Except.ok a : Except Fault α).map g = .ok (g a) := by
  simp only [Except.map]

@[simp] theorem error_map (f : Fault) (g : α → β) :
    (Except.error f : Except Fault α).map g = .error f := by
  simp only [Except.map]

theorem bind_eq_ok_iff : (x >>= k) = .ok b ↔ ∃ a, x = .ok a ∧ k a = .ok b := by
  cases x <;> simp

theorem bind_eq_error_iff :
    (x >>= k) = .error f ↔ x = .error f ∨ ∃ a, x = .ok a ∧ k a = .error f := by
  cases x <;> simp

theorem map_eq_ok_iff : x.map g = .ok b ↔ ∃ a, x = .ok a ∧ b = g a := by
  cases x <;> simp [eq_comm]

@[simp] theorem map_eq_error_iff : x.map g = .error f ↔ x = .error f := by
  cases x <;> simp

end Bind

end Calculator
