import Calculator.Expr.Basic
import Calculator.SymbolTable.Bindings

/-!
# The symbol table

The table holds variables, which are numbers, and functions of one argument, whose bodies are
expressions. The two have names of their own, so a variable and a function may share one. The
variables `ans` and `preans`, the last two results, are in every table from the beginning.

* `SymbolTable.empty`, `SymbolTable.standard`: the tables to begin with.
* `SymbolTable.write`: the four ways to write to a table.
* `getVariable_eq_ok_iff`, `getFunction_eq_ok_iff`: what a name finds.
* `functions_of_putVariable`, `vars_of_putFunction`: a write leaves the other collection alone.
-/

namespace Calculator

/-- The variables and the functions that a line can name (symbols header:44-73, `SymbolTable`). -/
structure SymbolTable where
  vars : Bindings Float
  functions : Bindings Expr

/-- The variable that holds the last result. -/
def lastResult : String := "ans"

/-- The variable that holds the result before the last. -/
def resultBeforeLast : String := "preans"

namespace SymbolTable

/-- The bindings of the last two results, zero at first. -/
def results : List (Binding Float) := [⟨lastResult, 0, false⟩, ⟨resultBeforeLast, 0, false⟩]

/-- The table without constants and functions (symbols:64-69, `empty`). -/
def empty : SymbolTable where
  vars := ⟨results, by decide⟩
  functions := ⟨[], by decide⟩

/-- The table with the constants `pi` and `e` and all built-in functions, which are final
(symbols:45-62, `SymbolTable`). -/
def standard : SymbolTable where
  vars := ⟨results ++ [⟨"pi", pi, true⟩, ⟨"e", euler, true⟩], by decide⟩
  functions := ⟨Builtin.all.map fun b => ⟨b.name, .builtin b.name b.apply, true⟩, by decide⟩

/-- The variable of a name (symbols:71-75, `get_variable`). -/
def getVariable (t : SymbolTable) (name : String) : Except Fault (Binding Float) :=
  match t.vars.find? name with
  | some b => .ok b
  | none => .error (.unknownVariable name)

/-- The function of a name (symbols:77-81, `get_callable`). -/
def getFunction (t : SymbolTable) (name : String) : Except Fault (Binding Expr) :=
  match t.functions.find? name with
  | some b => .ok b
  | none => .error (.unknownFunction name)

@[simp] theorem getVariable_eq_ok_iff {t : SymbolTable} {name : String} {b : Binding Float} :
    t.getVariable name = .ok b ↔ t.vars.find? name = some b := by
  unfold getVariable
  cases t.vars.find? name <;> simp

@[simp] theorem getFunction_eq_ok_iff {t : SymbolTable} {name : String} {b : Binding Expr} :
    t.getFunction name = .ok b ↔ t.functions.find? name = some b := by
  unfold getFunction
  cases t.functions.find? name <;> simp

/-- The names of all functions in the order of their characters (symbols:109-113,
`callable_names`). -/
def functionNames (t : SymbolTable) : List String := t.functions.names.mergeSort

/-- Writes a variable. -/
def putVariable (t : SymbolTable) (b : Binding Float) : Except Fault SymbolTable :=
  (t.vars.put b).map fun vars => { t with vars }

/-- Writes a function. -/
def putFunction (t : SymbolTable) (b : Binding Expr) : Except Fault SymbolTable :=
  (t.functions.put b).map fun functions => { t with functions }

theorem putVariable_eq_ok_iff {t t' : SymbolTable} {b : Binding Float} :
    t.putVariable b = .ok t' ↔ ∃ vars, t.vars.put b = .ok vars ∧ t' = { t with vars } :=
  map_eq_ok_iff

theorem putFunction_eq_ok_iff {t t' : SymbolTable} {b : Binding Expr} :
    t.putFunction b = .ok t' ↔
      ∃ functions, t.functions.put b = .ok functions ∧ t' = { t with functions } :=
  map_eq_ok_iff

theorem functions_of_putVariable {t t' : SymbolTable} {b : Binding Float}
    (h : t.putVariable b = .ok t') : t'.functions = t.functions := by
  obtain ⟨vars, _, rfl⟩ := putVariable_eq_ok_iff.1 h
  rfl

theorem vars_of_putFunction {t t' : SymbolTable} {b : Binding Expr}
    (h : t.putFunction b = .ok t') : t'.vars = t.vars := by
  obtain ⟨functions, _, rfl⟩ := putFunction_eq_ok_iff.1 h
  rfl

/-- What can be written to a table. -/
inductive Write where
  /-- A variable that may change later (symbols:83-90, `set_symbol`). -/
  | setVariable (name : String) (value : Float)
  /-- A function that may change later (symbols:92-99, `set_symbol`). -/
  | setFunction (name : String) (body : Expr)
  /-- A variable that is final (symbols:101-103, `define_constant`). -/
  | defineConstant (name : String) (value : Float)
  /-- A function that is final and built in, whichever it is (symbols:105-107, `define_builtin`). -/
  | defineBuiltin (name : String) (function : Float → Float)

/-- The table after a write. -/
def write (t : SymbolTable) : Write → Except Fault SymbolTable
  | .setVariable name value => t.putVariable ⟨name, value, false⟩
  | .setFunction name body => t.putFunction ⟨name, body, false⟩
  | .defineConstant name value => t.putVariable ⟨name, value, true⟩
  | .defineBuiltin name function => t.putFunction ⟨name, .builtin name function, true⟩

end SymbolTable

end Calculator
