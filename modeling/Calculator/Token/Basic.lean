/-!
# Tokens

A token is a piece of a line with its kind. The kind alone decides how the token behaves: its
precedence, and the number of operands it takes.

* `Kind.isBinaryOperator_iff`: the binary operators are the six arithmetic ones.
-/

namespace Calculator

/-- What a token is (token:7-18, `TokKind`). -/
inductive Token.Kind where
  /-- An unsigned numeral. -/
  | number
  /-- A name that no function bears. -/
  | ident
  | leftBracket
  | rightBracket
  | plus
  | minus
  | star
  | slash
  | caret
  /-- The factorial, written after its operand. -/
  | bang
  /-- The scaling by a power of ten, `E`. -/
  | sci
  /-- A name that a function bears. -/
  | call
deriving DecidableEq, Repr

/-- The number of operands that an operator takes (token:20, `Arity`). -/
inductive Token.Arity where
  | unary
  | binary
deriving DecidableEq, Repr

/-- A piece of a line (token:43-52, `Token`). Its precedence and its arity follow from the kind. -/
structure Token where
  kind : Token.Kind
  text : String
deriving DecidableEq, Repr

namespace Token.Kind

/-- How tightly an operator binds, the higher the tighter; zero for what is no operator
(token:23-35, `precedence`). -/
def precedence : Kind → Nat
  | call => 110
  | bang => 100
  | caret => 90
  | sci => 90
  | slash => 80
  | star => 70
  | plus => 60
  | minus => 50
  | number => 0
  | ident => 0
  | leftBracket => 0
  | rightBracket => 0

/-- An operator is a kind with a precedence (token:37, `is_operator`). -/
def isOperator (k : Kind) : Bool := 0 < k.precedence

/-- Two for the operators between two operands, and one for all other kinds (token:39-41, `arity`;
token:54-61, `make_token`). -/
def arity (k : Kind) : Arity :=
  if k.isOperator && k ≠ call && k ≠ bang then .binary else .unary

/-- An operator that stands between two operands (token:50, `is_binary_operator`). -/
def isBinaryOperator (k : Kind) : Bool := k.isOperator && k.arity = .binary

/-- A sign, which may also stand before an operand (token:51, `is_sign`). -/
def isSign (k : Kind) : Bool := k = plus || k = minus

/-- The kind of a token that is one character long and no numeral or name (lexer:32-35, 46-54,
`match_char`). -/
def ofChar? : Char → Option Kind
  | '(' => some leftBracket
  | ')' => some rightBracket
  | '+' => some plus
  | '-' => some minus
  | '*' => some star
  | '/' => some slash
  | '!' => some bang
  | '^' => some caret
  | 'E' => some sci
  | _ => none

theorem isBinaryOperator_iff (k : Kind) :
    k.isBinaryOperator ↔
      k = plus ∨ k = minus ∨ k = star ∨ k = slash ∨ k = caret ∨ k = sci := by
  cases k <;> decide

theorem isSign_imp_isBinaryOperator (k : Kind) : k.isSign → k.isBinaryOperator := by
  cases k <;> decide

end Token.Kind

end Calculator
