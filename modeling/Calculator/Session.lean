import Calculator.Expr.Eval
import Calculator.Expr.Parser
import Calculator.Token.Lexer

/-!
# Lines

A session is a symbol table to which lines are put one after the other. A line without an equals
sign is a query: its value becomes the last result, and the last result becomes the one before
it. Any other line is a definition: `name = expression` stores a number, and
`name(x) = expression` stores a function of `x`. A definition answers with zero.

* `Line.ofText`: what kind of line a text is.
* `SymbolTable.run`: the answer to a line, and the table after it.
* `SymbolTable.run_of_query_ok`, `SymbolTable.record_of_half` and the like: one case of it each.
-/

namespace Calculator

open Text

/-- A line without the blanks around its parts. -/
inductive Line where
  | query (text : String)
  /-- The texts before and behind the first equals sign. -/
  | definition (left right : String)
deriving DecidableEq, Repr

/-- Takes a line apart (engine:34-39, `run`). -/
def Line.ofText (text : String) : Line :=
  let s := trim text.toList
  match s.dropWhile (· ≠ '=') with
  | [] => .query (String.ofList s)
  | _ :: right =>
    .definition (String.ofList (trim (s.takeWhile (· ≠ '=')))) (String.ofList (trim right))

/-- What the left side of a definition names. -/
inductive Target where
  /-- A variable, written as its name. -/
  | number (name : String)
  /-- A function, written with its argument: `name(x)`. -/
  | function (name : String)
deriving DecidableEq, Repr

/-- Reads the left side of a definition (engine:18-27, `is_name`, `is_function_head`). -/
def Target.ofText? (text : String) : Option Target :=
  let s := text.toList
  let name := String.ofList (s.takeWhile isLetter)
  if s.takeWhile isLetter = [] then none
  else
    match s.dropWhile isLetter with
    | [] => some (.number name)
    | ['(', 'x', ')'] => some (.function name)
    | _ => none

namespace SymbolTable

/-- The expression that a text stands for when the functions of the table can be called
(engine:29-31, `compile`). -/
def compile (t : SymbolTable) (text : String) : Except Fault Expr := do
  let tokens ← tokenise t.functions.names text
  Expr.parseAll tokens

/-- The value of a text. -/
def valueOf (t : SymbolTable) (text : String) : Except Fault Float := do
  let e ← t.compile text
  t.evaluate e none

/-- Makes `result` the last result, and the last result the one before it. The latter is written
first, and stays written if the former cannot be (engine:44-47, `run`). -/
def record (t : SymbolTable) (result : Float) : Except Fault Float × SymbolTable :=
  match t.getVariable lastResult with
  | .error f => (.error f, t)
  | .ok previous =>
    match t.write (.setVariable resultBeforeLast previous.value) with
    | .error f => (.error f, t)
    | .ok t₁ =>
      match t₁.write (.setVariable lastResult result) with
      | .error f => (.error f, t₁)
      | .ok t₂ => (.ok result, t₂)

/-- Stores what the right side of a definition stands for (engine:50-62, `assign`). -/
def define (t : SymbolTable) (left right : String) : Except Fault SymbolTable :=
  match Target.ofText? left with
  | none => .error .unknownAssignment
  | some (.function name) => do
    let body ← t.compile right
    t.write (.setFunction name body)
  | some (.number name) => do
    let value ← t.valueOf right
    t.write (.setVariable name value)

/-- The answer to a line, and the table after it (engine:33-48, `run`). -/
def run (t : SymbolTable) (text : String) : Except Fault Float × SymbolTable :=
  match Line.ofText text with
  | .query text =>
    match t.valueOf text with
    | .error f => (.error f, t)
    | .ok result => t.record result
  | .definition left right =>
    match t.define left right with
    | .error f => (.error f, t)
    | .ok t' => (.ok 0, t')

/-! ## One case after the other -/

section Cases

variable {t t₁ t₂ : SymbolTable} {line text left right name : String} {last : Binding Float}
  {result : Float} {f : Fault}

theorem record_of_error (hlast : t.vars.find? lastResult = some last)
    (hbefore : t.write (.setVariable resultBeforeLast last.value) = .error f) :
    t.record result = (.error f, t) := by
  simp [record, getVariable_eq_ok_iff.2 hlast, hbefore]

/-- The result before the last has been written when the last one cannot be. -/
theorem record_of_half (hlast : t.vars.find? lastResult = some last)
    (hbefore : t.write (.setVariable resultBeforeLast last.value) = .ok t₁)
    (hresult : t₁.write (.setVariable lastResult result) = .error f) :
    t.record result = (.error f, t₁) := by
  simp [record, getVariable_eq_ok_iff.2 hlast, hbefore, hresult]

theorem record_of_ok (hlast : t.vars.find? lastResult = some last)
    (hbefore : t.write (.setVariable resultBeforeLast last.value) = .ok t₁)
    (hresult : t₁.write (.setVariable lastResult result) = .ok t₂) :
    t.record result = (.ok result, t₂) := by
  simp [record, getVariable_eq_ok_iff.2 hlast, hbefore, hresult]

theorem define_of_none (hleft : Target.ofText? left = none) :
    t.define left right = .error .unknownAssignment := by
  simp [define, hleft]

theorem define_of_function (hleft : Target.ofText? left = some (.function name)) :
    t.define left right = (t.compile right >>= fun body => t.write (.setFunction name body)) := by
  simp [define, hleft]

theorem define_of_number (hleft : Target.ofText? left = some (.number name)) :
    t.define left right = (t.valueOf right >>= fun value => t.write (.setVariable name value)) := by
  simp [define, hleft]

theorem run_of_query_error (hline : Line.ofText line = .query text)
    (hvalue : t.valueOf text = .error f) : t.run line = (.error f, t) := by
  simp [run, hline, hvalue]

theorem run_of_query_ok (hline : Line.ofText line = .query text)
    (hvalue : t.valueOf text = .ok result) : t.run line = t.record result := by
  simp [run, hline, hvalue]

theorem run_of_definition_error (hline : Line.ofText line = .definition left right)
    (hdefine : t.define left right = .error f) : t.run line = (.error f, t) := by
  simp [run, hline, hdefine]

theorem run_of_definition_ok (hline : Line.ofText line = .definition left right)
    (hdefine : t.define left right = .ok t₁) : t.run line = (.ok 0, t₁) := by
  simp [run, hline, hdefine]

end Cases

/-- The answers to some lines, put one after the other, each with the table after it. -/
def runAll (t : SymbolTable) : List String → List (Except Fault Float × SymbolTable)
  | [] => []
  | line :: lines => t.run line :: (t.run line).2.runAll lines

end SymbolTable

end Calculator
