import Calculator.Console
import Calculator.Proofs.Session.Outcome
import Mathlib.Data.List.Forall2

/-!
# The console as a shell over a session

The console answers some lines itself and puts the others to its session, whose values and faults it
writes out. The session sees only those other lines. So at every point the console shows what a
fresh session shows to which only they were put, whatever stood between them: no request to the
console, no blank line and no fault leaves a trace.

* `Leaves`, `Requests`, `Blank`, `GoesToSession`: what the console does with a line.
* `Shows`, `ListsVariable`, `ListsFunction`: the texts of a number and of the entries of a table.
* `RepliesTo`: what it may write in reply.
* `SymbolTable.answer_of_not_leaves`: one line.
* `SymbolTable.exists_converse_append`: many lines, none of which leaves.
* `linesAnswered`, `leavingLine`: the lines up to the first that leaves.
* `transcript_of_session`: a whole conversation.
-/

namespace Calculator

variable {line : String}

/-! ## What is done with a line -/

/-- The line ends the conversation. -/
def Leaves (line : String) : Prop := line = "quit" ∨ line = "exit"

/-- The line is a request to the console, and has nothing beside it, not even a blank. -/
def Requests (line : String) : Prop := line = "help" ∨ line = "vars" ∨ line = "funcs"

/-- There are only spaces and tabs in the line, or nothing at all. -/
def Blank (line : String) : Prop := ∀ c ∈ line.toList, c = ' ' ∨ c = '\t'

/-- The line is put to the session. -/
def GoesToSession (line : String) : Prop := ¬Leaves line ∧ ¬Requests line ∧ ¬Blank line

instance : Decidable (Leaves line) := inferInstanceAs (Decidable (_ ∨ _))

instance : Decidable (Requests line) := inferInstanceAs (Decidable (_ ∨ _))

-- Goes through the characters of the line, and not through all that there are.
instance : Decidable (Blank line) :=
  List.decidableBAll (fun c => c = ' ' ∨ c = '\t') line.toList

instance : Decidable (GoesToSession line) := inferInstanceAs (Decidable (_ ∧ _))

/-! ## What is written -/

/-- The text that a number is shown as. Only the sign of a NaN is left open. -/
inductive Shows (x : Float) : String → Prop where
  | number (hx : ¬x.isNaN) : Shows x (displayNumber x)
  | nan (hx : x.isNaN) : Shows x "nan"
  | negativeNan (hx : x.isNaN) : Shows x "-nan"

/-- A line of the list of variables has the name of the entry, its value, and a mark if the entry is
final. -/
def ListsVariable (b : Binding Float) (text : String) : Prop :=
  ∃ shown, Shows b.value shown ∧
    text = "  " ++ b.name ++ " = " ++ shown ++ (if b.isFinal then "  (const)\n" else "\n")

/-- A line of the list of functions has the name of the entry and the text of its body. -/
def ListsFunction (b : Binding Expr) (text : String) : Prop :=
  text = "  " ++ b.name ++ "(x) = " ++ b.value.render ++ "\n"

/-- What the console may write in reply to a line that does not end the conversation, when its
session has the table `t`. A list has one line for each entry of the table, in their order, and of
the report of a fault all is seen that stands before a U+0000. -/
inductive RepliesTo (t : SymbolTable) : String → Reply → Prop where
  | help : RepliesTo t "help" ⟨helpText, ""⟩
  | variables (texts : List String) (htexts : List.Forall₂ ListsVariable t.vars.entries texts) :
      RepliesTo t "vars" ⟨String.join texts, ""⟩
  | functions (texts : List String)
      (htexts : List.Forall₂ ListsFunction t.functions.entries texts) :
      RepliesTo t "funcs" ⟨String.join texts, ""⟩
  | blank (line : String) (hline : Blank line) : RepliesTo t line ⟨"", ""⟩
  | value (line : String) (value : Float) (shown : String) (hline : GoesToSession line)
      (hvalue : (t.run line).1 = .ok value) (hshown : Shows value shown) :
      RepliesTo t line ⟨shown ++ "\n", ""⟩
  | fault (line : String) (f : Fault) (hline : GoesToSession line)
      (hfault : (t.run line).1 = .error f) :
      RepliesTo t line
        ⟨"", "error: " ++ String.ofList (f.message.toList.takeWhile (· ≠ '\x00')) ++ "\n"⟩

theorem shows_displayNumber (x : Float) (nanSign : Bool) : Shows x (displayNumber x nanSign) := by
  by_cases hx : x.isNaN
  · rw [displayNumber_of_isNaN hx]
    cases nanSign with
    | false => exact .nan hx
    | true => exact .negativeNan hx
  · rw [displayNumber_of_not_isNaN hx]
    exact .number hx

theorem listsVariable_variableLine (b : Binding Float) (nanSign : Bool) :
    ListsVariable b (variableLine b nanSign) := by
  refine ⟨_, shows_displayNumber b.value nanSign, ?_⟩
  rw [variableLine, String.append_assoc]
  cases b.isFinal <;> rfl

theorem listsFunction_functionLine (b : Binding Expr) : ListsFunction b (functionLine b) := by
  have hargument : "(" ++ argumentName ++ ") = " = "(x) = " := rfl
  rw [ListsFunction, functionLine, ← hargument]
  simp only [String.append_assoc]

/-- Lines that are made of the entries one by one are a list of them. -/
theorem forall₂_map {α : Type} {lists : α → String → Prop} {text : α → String}
    (h : ∀ b, lists b (text b)) (bs : List α) : List.Forall₂ lists bs (bs.map text) :=
  List.forall₂_map_right_iff.2 (List.forall₂_same.2 fun b _ => h b)

namespace Command

theorem ofText_of_leaves (h : Leaves line) : ofText line = .leave := if_pos h

theorem ofText_of_not_leaves (h : ¬Leaves line) :
    ofText line =
      if line = "help" then .help
      else if line = "vars" then .listVariables
      else if line = "funcs" then .listFunctions
      else if line.toList.all fun c => c = ' ' || c = '\t' then .nothing
      else .run line :=
  if_neg h

theorem ofText_of_blank (h : Blank line) : ofText line = .nothing := by
  have hwords : ∀ word ∈ ["quit", "exit", "help", "vars", "funcs"], ¬Blank word := by decide
  have hne : ∀ word ∈ ["quit", "exit", "help", "vars", "funcs"], line ≠ word :=
    fun word hword heq => hwords word hword (heq ▸ h)
  have hall : line.toList.all fun c => c = ' ' || c = '\t' := by
    rw [List.all_eq_true]
    intro c hc
    simpa using h c hc
  unfold ofText
  simp [hne, hall]

theorem ofText_of_goesToSession (h : GoesToSession line) : ofText line = .run line := by
  obtain ⟨hleaves, hrequests, hblank⟩ := h
  have hall : ¬(line.toList.all fun c => c = ' ' || c = '\t') := by
    rw [List.all_eq_true]
    intro hall
    exact hblank fun c hc => by simpa using hall c hc
  simp only [Requests, not_or] at hrequests
  rw [ofText_of_not_leaves hleaves, if_neg hrequests.1, if_neg hrequests.2.1,
    if_neg hrequests.2.2, if_neg hall]

theorem ofText_ne_leave (h : ¬Leaves line) : ofText line ≠ .leave := by
  by_cases hrequests : Requests line
  · rcases hrequests with rfl | rfl | rfl <;> decide
  by_cases hblank : Blank line
  · rw [ofText_of_blank hblank]
    exact Command.noConfusion
  · rw [ofText_of_goesToSession ⟨h, hrequests, hblank⟩]
    exact Command.noConfusion

end Command

namespace SymbolTable

variable {t : SymbolTable} {front : List String} {signs : NanSigns}

/-! ## One line -/

/-- The table changes as the session changes it, if the line is put to the session, and otherwise
not at all. -/
theorem answer_of_not_leaves (h : ¬Leaves line) (signs : NanSigns) :
    RepliesTo t line (t.answer (.ofText line) signs).1 ∧
      (t.answer (.ofText line) signs).2 = t.after ([line].filter GoesToSession) := by
  by_cases hrequests : Requests line
  · rcases hrequests with rfl | rfl | rfl
    · exact ⟨.help, rfl⟩
    · have hlists (b : Binding Float) : ListsVariable b (variableLine b (signs b.name)) :=
        listsVariable_variableLine b _
      exact ⟨.variables _ (forall₂_map hlists t.vars.entries), rfl⟩
    · exact ⟨.functions _ (forall₂_map listsFunction_functionLine t.functions.entries), rfl⟩
  by_cases hblank : Blank line
  · have hnot : ¬GoesToSession line := fun hline => hline.2.2 hblank
    rw [Command.ofText_of_blank hblank, List.filter_cons_of_neg (by simpa using hnot)]
    exact ⟨.blank line hblank, rfl⟩
  · have hline : GoesToSession line := ⟨h, hrequests, hblank⟩
    rw [Command.ofText_of_goesToSession hline, List.filter_cons_of_pos (by simpa using hline)]
    refine ⟨?_, rfl⟩
    show RepliesTo t line (Reply.ofAnswer (t.run line).1 (signs lastResult))
    cases hanswer : (t.run line).1 with
    | ok value => exact .value line value _ hline hanswer (shows_displayNumber value _)
    | error f => exact .fault line f hline hanswer

theorem converse_cons (h : ¬Leaves line) (lines : List String) (signs : Nat → NanSigns) :
    t.converse (line :: lines) signs =
      (t.answer (.ofText line) (signs 0)).1 ::
        (t.after ([line].filter GoesToSession)).converse lines fun n => signs (n + 1) := by
  have hleave : Command.ofText line ≠ .leave := Command.ofText_ne_leave h
  rw [← (answer_of_not_leaves h (signs 0)).2]
  simp only [converse, if_neg hleave]

theorem converse_cons_of_leaves (h : Leaves line) (lines : List String) (signs : Nat → NanSigns) :
    t.converse (line :: lines) signs = [⟨"", ""⟩] := by
  have hleave : Command.ofText line = .leave := Command.ofText_of_leaves h
  simp only [converse, hleave]
  rfl

/-! ## Many lines -/

theorem after_filter_cons (t : SymbolTable) (line : String) (front : List String) :
    t.after ((line :: front).filter GoesToSession) =
      (t.after ([line].filter GoesToSession)).after (front.filter GoesToSession) := by
  rw [← List.singleton_append, List.filter_append, after_append]

/-- Lines of which none leaves get the replies of the session to which only those that are put to it
had been put, and after them the conversation goes on with that session. -/
theorem exists_converse_append (h : ∀ line ∈ front, ¬Leaves line) (back : List String)
    (signs : Nat → NanSigns) :
    ∃ replies, replies.length = front.length ∧
      t.converse (front ++ back) signs =
        replies ++ (t.after (front.filter GoesToSession)).converse back
          (fun n => signs (n + front.length)) ∧
      ∀ before line behind, front = before ++ line :: behind →
        ∃ reply, replies[before.length]? = some reply ∧
          RepliesTo (t.after (before.filter GoesToSession)) line reply := by
  induction front generalizing t signs with
  | nil => exact ⟨[], rfl, rfl, by simp⟩
  | cons first front ih =>
    rw [List.forall_mem_cons] at h
    obtain ⟨replies, hlength, hconverse, hreplies⟩ :=
      ih (t := t.after ([first].filter GoesToSession)) h.2 fun n => signs (n + 1)
    refine ⟨(t.answer (.ofText first) (signs 0)).1 :: replies, by simp [hlength], ?_, ?_⟩
    · rw [List.cons_append, List.cons_append, converse_cons h.1, hconverse,
        after_filter_cons t first front]
      rfl
    · intro before line behind hsplit
      cases before with
      | nil =>
        cases hsplit
        exact ⟨_, rfl, (answer_of_not_leaves h.1 _).1⟩
      | cons _ before =>
        cases hsplit
        rw [after_filter_cons]
        exact hreplies before line behind rfl

end SymbolTable

/-! ## A whole conversation -/

/-- The lines before the first that leaves; all of them if none does. -/
def linesAnswered (lines : List String) : List String := lines.takeWhile (¬Leaves ·)

/-- The first line that leaves, if there is one. -/
def leavingLine (lines : List String) : List String := (lines.dropWhile (¬Leaves ·)).take 1

theorem not_leaves_of_mem {lines : List String} (h : line ∈ linesAnswered lines) :
    ¬Leaves line := by
  simpa using List.all_eq_true.1 List.all_takeWhile line h

theorem leaves_of_dropWhile_eq_cons {lines back : List String}
    (h : lines.dropWhile (¬Leaves ·) = line :: back) : Leaves line := by
  have hhead := List.head?_dropWhile_not (¬Leaves ·) lines
  rw [h] at hhead
  simpa using hhead

theorem linesAnswered_append (lines : List String) :
    linesAnswered lines ++ lines.dropWhile (¬Leaves ·) = lines :=
  List.takeWhile_append_dropWhile

theorem linesRead_append {front : List String} (h : ∀ line ∈ front, ¬Leaves line)
    (back : List String) : linesRead (front ++ back) = front ++ linesRead back := by
  induction front with
  | nil => rfl
  | cons line front ih =>
    rw [List.forall_mem_cons] at h
    rw [List.cons_append, linesRead, if_neg (Command.ofText_ne_leave h.1), ih h.2]
    rfl

/-- From the line that leaves on, that line is all that is read, and nothing is written. -/
theorem linesRead_and_converse_dropWhile (t : SymbolTable) (lines : List String)
    (signs : Nat → NanSigns) :
    linesRead (lines.dropWhile (¬Leaves ·)) = leavingLine lines ∧
      t.converse (lines.dropWhile (¬Leaves ·)) signs =
        (leavingLine lines).map fun _ => ⟨"", ""⟩ := by
  unfold leavingLine
  cases hback : lines.dropWhile (¬Leaves ·) with
  | nil => exact ⟨rfl, rfl⟩
  | cons line back =>
    have hleaves := leaves_of_dropWhile_eq_cons hback
    rw [linesRead, Command.ofText_of_leaves hleaves, if_pos rfl,
      SymbolTable.converse_cons_of_leaves hleaves]
    exact ⟨rfl, rfl⟩

/-- A conversation consists of the lines before the first that leaves, and of that one. Each of the
former gets a reply as it would from a session to which only those before it that are put to the
session had been put, and that had begun afresh: so whatever a line comes to, the conversation goes
on, and no other line makes a difference. This is so whichever signs the NaNs have. All lines that
were read and are not empty can be recalled, and the conversation ends well. -/
theorem transcript_of_session (lines : List String) (signs : Nat → NanSigns) :
    (∃ replies,
      (Transcript.ofLines lines signs).replies =
        replies ++ (leavingLine lines).map (fun _ => ⟨"", ""⟩) ∧
      replies.length = (linesAnswered lines).length ∧
      ∀ before line behind, linesAnswered lines = before ++ line :: behind →
        ∃ reply, replies[before.length]? = some reply ∧
          RepliesTo (SymbolTable.standard.after (before.filter GoesToSession)) line reply) ∧
    (Transcript.ofLines lines signs).history =
      (linesAnswered lines ++ leavingLine lines).filter (· ≠ "") ∧
    (Transcript.ofLines lines signs).exitCode = 0 := by
  have hanswered : ∀ line ∈ linesAnswered lines, ¬Leaves line := fun line => not_leaves_of_mem
  refine ⟨?_, ?_, rfl⟩
  · obtain ⟨replies, hlength, hconverse, hreplies⟩ :=
      SymbolTable.exists_converse_append (t := .standard) hanswered
        (lines.dropWhile (¬Leaves ·)) signs
    rw [linesAnswered_append, (linesRead_and_converse_dropWhile _ lines _).2] at hconverse
    exact ⟨replies, hconverse, hlength, hreplies⟩
  · have hread := linesRead_append hanswered (lines.dropWhile (¬Leaves ·))
    rw [linesAnswered_append, (linesRead_and_converse_dropWhile .standard lines signs).1] at hread
    rw [Transcript.ofLines, hread]

/-- A variable may have the name of a request, and shows behind a blank. -/
example :
    Transcript.ofLines ["help = 3", " help", "", "help", "1 / 0", "quit ", "exit", "vars"] =
      ⟨[⟨"0\n", ""⟩, ⟨"3\n", ""⟩, ⟨"", ""⟩, ⟨helpText, ""⟩,
          ⟨"", "error: Cannot divide by zero\n"⟩,
          ⟨"", "error: quit is not a stored variable\n"⟩, ⟨"", ""⟩],
        ["help = 3", " help", "help", "1 / 0", "quit ", "exit"], 0⟩ := by
  decide +kernel

end Calculator
