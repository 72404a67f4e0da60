import Calculator.Decimal.Numeral
import Calculator.Expr.Basic
import Calculator.Token.Basic

/-!
# Reading expressions

An expression is an operand followed by a chain of operators, each with an operand of its own.
A chain takes up operators that bind at least as tightly as asked for; the operand of an operator
is first given to the chain of the tighter operators behind it. Plus and minus bind alike, and so
do times and divide, so that chains of either associate to the left.

An expression opens a level, and so does each sign, factorial and operator. The levels of a chain
stay open until the chain ends, that of a sign until its operand has been read, and that of an
expression until both have. At most `maxLevels` may be open at a time: the levels left are what
`operand` and `chain` run on, and they call each other only with one level less.

* `Expr.parse`: reads one expression and tells where it ends.
* `Expr.parseAll`: reads one expression that takes up all tokens.
* `Token.Kind.isSome_operator?`: the binary operators are the kinds that stand for an operation.
-/

namespace Calculator

namespace Token.Kind

/-- How tightly an operator binds its operands. The signs bind alike, and so do times and
divide (parser:10-16, `binding`). -/
def binding : Kind → Nat
  | minus => plus.precedence
  | star => slash.precedence
  | k => k.precedence

/-- The operation that a binary operator stands for (parser:18-29, `binary_op`). -/
def operator? : Kind → Option Operator
  | plus => some .add
  | minus => some .sub
  | star => some .mul
  | slash => some .div
  | caret => some .pow
  | sci => some .sci
  | _ => none

/-- An operand can begin with a token of this kind (parser:71-83, `starts_operand`). -/
def startsOperand : Kind → Bool
  | number => true
  | ident => true
  | call => true
  | leftBracket => true
  | plus => true
  | minus => true
  | _ => false

theorem isSome_operator? (k : Kind) : k.operator?.isSome = k.isBinaryOperator := by
  cases k <;> decide

end Token.Kind

/-- The most levels that may be open at a time (parser header:14, `kMaxExprDepth`; parser:35-51,
`DepthGuard`). -/
def maxLevels : Nat := 256

/-- An expression that was read, and the tokens behind it (parser header:16-19, `ParseResult`). -/
abbrev Reading := Except Fault (Expr × List Token)

namespace Reading

/-- The next token takes the operand before it away from an operator of this binding: it is a
factorial, or an operator that binds tighter (parser:86-91, `binds_tighter`). -/
def bindsTighter (binding : Nat) : List Token → Bool
  | [] => false
  | t :: _ => t.kind = .bang || (t.kind.isBinaryOperator && binding < t.kind.binding)

/-- What was read, as part of a larger expression. -/
def mapExpr (f : Expr → Expr) : Reading → Reading
  | .error fault => .error fault
  | .ok (e, rest) => .ok (f e, rest)

/-- An operand and the chain behind it, given how to read either (parser:61-65, `expression`). -/
def sumWith (operand : List Token → Reading) (chain : Expr → Nat → List Token → Reading) :
    List Token → Reading
  | [] => .error .expectedExpression
  | t :: rest =>
    if t.kind.startsOperand then do
      let (e, rest) ← operand (t :: rest)
      chain e 0 rest
    else .error (.cannotStart t.text)

/-- The inside of a bracket and the bracket that closes it, given what was read inside
(parser:158-164, `brackets`). -/
def closed : Reading → Reading
  | .error fault => .error fault
  | .ok (_, []) => .error .unmatchedBrackets
  | .ok (e, t :: rest) =>
    if t.kind = .rightBracket then .ok (e, rest) else .error .unmatchedBrackets

mutual

/-- One operand (parser:130-156, `operand`). A sign adds the operand behind it to zero or subtracts
it from zero. A call needs a bracket and at least two tokens behind it (parser:167-173,
`function_call`). -/
def operand : (levels : Nat) → List Token → Reading
  | _, [] => .error .missingOperand
  | levels, t :: rest =>
    match t.kind with
    | .number => .ok (.number (readNumeral t.text), rest)
    | .ident => .ok (.var t.text, rest)
    | .leftBracket =>
      match levels with
      | 0 => .error .tooDeeplyNested
      | n + 1 => closed (sumWith (operand n) (chain n) rest)
    | .call =>
      match rest with
      | [] => .error (.invalidCall t.text)
      | bracket :: inner =>
        if bracket.kind = .leftBracket ∧ 2 ≤ inner.length then
          match levels with
          | 0 => .error .tooDeeplyNested
          | n + 1 => mapExpr (.call t.text) (closed (sumWith (operand n) (chain n) inner))
        else .error (.invalidCall t.text)
    | .plus =>
      match levels with
      | 0 => .error .tooDeeplyNested
      | n + 1 => mapExpr (.binary .add (.number 0)) (operand n rest)
    | .minus =>
      match levels with
      | 0 => .error .tooDeeplyNested
      | n + 1 => mapExpr (.binary .sub (.number 0)) (operand n rest)
    | _ => .error (.unexpectedOperand t.text)

/-- The operators behind `left` that bind at least as tightly as `least`, folded into it
(parser:95-128, `continue_parsing`). A chain of any operators that takes up all tokens ends on the
addition of zero. -/
def chain : (levels : Nat) → Expr → (least : Nat) → List Token → Reading
  | _, left, least, [] => .ok (if least = 0 then .binary .add left (.number 0) else left, [])
  | levels, left, least, t :: rest =>
    if t.kind = .rightBracket then .ok (left, t :: rest)
    else if t.kind = .bang then
      match levels with
      | 0 => .error .tooDeeplyNested
      | n + 1 => chain n (.factorial left) least rest
    else
      match t.kind.operator? with
      | none => .error (.expectedOperator t.text)
      | some op =>
        if t.kind.binding < least then .ok (left, t :: rest)
        else
          match levels with
          | 0 => .error .tooDeeplyNested
          | n + 1 => do
            let (right, rest) ← operand n rest
            let (right, rest) ←
              if bindsTighter t.kind.binding rest then chain n right (t.kind.binding + 1) rest
              else .ok (right, rest)
            chain n (.binary op left right) least rest

end

/-- An expression, which is a level of its own (parser:58-66, `expression`). -/
def sum : (levels : Nat) → List Token → Reading
  | 0, _ => .error .tooDeeplyNested
  | n + 1, tokens => sumWith (operand n) (chain n) tokens

end Reading

namespace Expr

/-- Reads the expression that begins at token `start`, up to a closing bracket or the end of the
tokens, and tells the number of the first token behind it (parser:181-183, `parse`). -/
def parse (tokens : List Token) (start : Nat) : Except Fault (Expr × Nat) := do
  let (e, rest) ← Reading.sum maxLevels (tokens.drop start)
  .ok (e, tokens.length - rest.length)

/-- Reads the expression that all the tokens form (parser:185-190, `parse_all`). -/
def parseAll : List Token → Except Fault Expr
  | [] => .error .emptyExpression
  | t :: ts => do
    let (e, next) ← parse (t :: ts) 0
    if next = (t :: ts).length then .ok e else .error .unmatchedBrackets

end Expr

end Calculator
