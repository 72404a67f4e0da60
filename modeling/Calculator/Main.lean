import Calculator.Console

/-!
# The command line

Reads lines from the standard input until it ends or a line leaves, and writes the replies to the
standard output and the faults to the standard error.
-/

namespace Calculator

/-- The text of a line without the line break at its end. -/
def withoutLineBreak (line : String) : String :=
  String.ofList ((line.toList.reverse.dropWhile (· = '\n')).reverse)

/-- Answers one line after the other. -/
partial def serve (stdin stdout stderr : IO.FS.Stream) (t : SymbolTable) : IO Unit := do
  stdout.putStr "> "
  stdout.flush
  let line ← stdin.getLine
  if line.isEmpty then return
  let command := Command.ofText (withoutLineBreak line)
  let (reply, t') := t.answer command
  stdout.putStr reply.out
  stdout.flush
  stderr.putStr reply.err
  if command ≠ .leave then serve stdin stdout stderr t'

end Calculator

/-- Starts a session with the standard table (repl:43-65, `main`). -/
def main : IO Unit := do
  Calculator.serve (← IO.getStdin) (← IO.getStdout) (← IO.getStderr) Calculator.SymbolTable.standard
