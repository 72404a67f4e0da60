import Calculator.Main
import Calculator.Proofs.Arithmetic.Factorial
import Calculator.Proofs.Console
import Calculator.Proofs.Expr.Literal
import Calculator.Proofs.Expr.Substitution
import Calculator.Proofs.Grammar.Depth
import Calculator.Proofs.Grammar.Render
import Calculator.Proofs.Session.Assignment
import Calculator.Proofs.Session.Closed
import Calculator.Proofs.Session.Commute
import Calculator.Proofs.Session.History
import Calculator.Proofs.Session.Layered
import Calculator.Proofs.Session.Mention
import Calculator.Proofs.Session.ReadBack
import Calculator.Proofs.Token.Stream
