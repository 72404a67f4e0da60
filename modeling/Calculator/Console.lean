import Calculator.Session

/-!
# The console

The console reads lines one after the other. Some lines are commands: they show a help text, list
the variables or the functions, or leave. A line of spaces and tabs does nothing, and any other
line is run in the session, whose answer or fault is written out. No fault ends the console.

Which sign a NaN has is not settled by the arithmetic, and differs between the ways to come to one.
So the conversation is described for any signs that the values of the variables may have after each
line.

* `Command.ofText`: what a line asks for.
* `SymbolTable.answer`: what is written in reply, and the table after it.
* `Transcript.ofLines`: a whole conversation from its lines.
-/

namespace Calculator

/-- What a line asks of the console. -/
inductive Command where
  | leave
  | help
  | listVariables
  | listFunctions
  | nothing
  | run (text : String)
deriving DecidableEq, Repr

/-- The command that a line is. The words of the commands count only where nothing stands
beside them, not even a blank (repl:47-54, `main`). -/
def Command.ofText (text : String) : Command :=
  if text = "quit" ∨ text = "exit" then .leave
  else if text = "help" then .help
  else if text = "vars" then .listVariables
  else if text = "funcs" then .listFunctions
  else if text.toList.all fun c => c = ' ' || c = '\t' then .nothing
  else .run text

/-- What is written in reply to a line, and the report of a fault. -/
structure Reply where
  out : String
  err : String
deriving DecidableEq, Repr

/-- The reply to a line that asks for nothing. -/
def Reply.silent : Reply := ⟨"", ""⟩

/-- The text that explains what can be typed (repl:13-18, `kHelpText`). -/
def helpText : String :=
  "  2+3*4, (2+3)*4, 5!, 2^10, 1.5E3   expressions\n" ++
  "  r = 2                             store a variable\n" ++
  "  area(x) = pi*x^2                  define a function of x\n" ++
  "  ans, preans                       last two results\n" ++
  "  vars | funcs | help | quit | exit\n"

/-- One line of the list of variables (repl:31-33, `print_variables`). -/
def variableLine (b : Binding Float) (nanSign : Bool := false) : String :=
  "  " ++ b.name ++ " = " ++ displayNumber b.value nanSign ++
    (if b.isFinal then "  (const)" else "") ++ "\n"

/-- One line of the list of functions (repl:39, `print_functions`). -/
def functionLine (b : Binding Expr) : String :=
  "  " ++ b.name ++ "(" ++ argumentName ++ ") = " ++ b.value.render ++ "\n"

/-- The reply to the answer of a session (repl:57-61, `main`). -/
def Reply.ofAnswer (answer : Except Fault Float) (nanSign : Bool := false) : Reply :=
  match answer with
  | .ok value => ⟨displayNumber value nanSign ++ "\n", ""⟩
  | .error f => ⟨"", "error: " ++ f.shown ++ "\n"⟩

/-- The signs that a NaN has as the value of each variable. -/
abbrev NanSigns := String → Bool

/-- All of them are positive. -/
def NanSigns.positive : NanSigns := fun _ => false

namespace SymbolTable

/-- The reply to a command, and the table after it (repl:47-62, `main`). Only a line that is run can
change it. The signs are those after the command; the answer to a query is the last result, and has
its sign. -/
def answer (t : SymbolTable) (command : Command) (signs : NanSigns := .positive) :
    Reply × SymbolTable :=
  match command with
  | .leave => (.silent, t)
  | .nothing => (.silent, t)
  | .help => (⟨helpText, ""⟩, t)
  | .listVariables =>
    (⟨String.join (t.vars.entries.map fun b => variableLine b (signs b.name)), ""⟩, t)
  | .listFunctions => (⟨String.join (t.functions.entries.map functionLine), ""⟩, t)
  | .run text => (Reply.ofAnswer (t.run text).1 (signs lastResult), (t.run text).2)

/-- The replies to some lines, up to the first that leaves, given the signs after each line
(repl:46-63, the loop of `main`). -/
def converse (t : SymbolTable) (lines : List String)
    (signs : Nat → NanSigns := fun _ => .positive) : List Reply :=
  match lines with
  | [] => []
  | line :: lines =>
    let (reply, t') := t.answer (Command.ofText line) (signs 0)
    reply :: if Command.ofText line = .leave then [] else t'.converse lines fun n => signs (n + 1)

end SymbolTable

/-- The lines that the console reads: those up to the first that leaves, which is read too. -/
def linesRead : List String → List String
  | [] => []
  | line :: lines => line :: if Command.ofText line = .leave then [] else linesRead lines

/-- A conversation: the reply to each line read, the lines that can be recalled, and the code
that the console ends with. -/
structure Transcript where
  replies : List Reply
  history : List String
  exitCode : Nat
deriving DecidableEq, Repr

/-- The conversation that begins with a fresh session. All lines that are not empty can be
recalled, and it ends well however it went (repl:20-27, `read_line`; repl:43-65, `main`). -/
def Transcript.ofLines (lines : List String) (signs : Nat → NanSigns := fun _ => .positive) :
    Transcript where
  replies := SymbolTable.standard.converse lines signs
  history := (linesRead lines).filter (· ≠ "")
  exitCode := 0

end Calculator
