import Calculator.Proofs.SymbolTable.Writes
import Mathlib.Data.List.Nodup

/-!
# The table as an ordered map with final entries

What a table holds is decided by the writes that succeeded. Each name stands once in its collection,
at the place that it got with its first write; it has the value of the last write, and it is final
if any write made it so. No further write to a final entry succeeds, and so it stays as it is, where
it is.

* `Bindings.LeftBy`: the collection that some writes, one after the other, leave behind.
* `Bindings.KeepsFinal`: the final entries of one collection are those of another.
* `accepted`: the writes that succeed.
* `write_eq_error_iff`, `written_of_write`: which writes fail, and what the others do.
* `afterWrites_leftBy`: the table after any writes.
-/

namespace Calculator

namespace Bindings

variable {α : Type} {bs bs' : Bindings α} {b : Binding α} {written : List (Binding α)}

/-! ## Names in the order of their first write -/

theorem eraseDups_of_nodup {names : List String} (h : names.Nodup) : names.eraseDups = names := by
  induction names with
  | nil => rfl
  | cons name names ih =>
    rw [List.nodup_cons] at h
    have hkept : names.filter (fun n => !n == name) = names := by
      rw [List.filter_eq_self]
      intro n hn
      have hne : n ≠ name := fun heq => h.1 (heq ▸ hn)
      simp [hne]
    rw [List.eraseDups_cons, hkept, ih h.2]

theorem eraseDups_concat (names : List String) (name : String) :
    (names ++ [name]).eraseDups =
      if name ∈ names then names.eraseDups else names.eraseDups ++ [name] := by
  rw [List.eraseDups_append]
  by_cases h : name ∈ names
  · simp [List.removeAll, h]
  · simp [List.removeAll, h, List.eraseDups_cons]

/-! ## What is left behind -/

/-- The collection that some bindings leave behind, which were written one after the other: each
name once, in the order of the first writes; with it the value that was written last; and final if
any of the bindings written under the name is. -/
structure LeftBy (bs : Bindings α) (written : List (Binding α)) : Prop where
  names_eq : bs.names = (written.map Binding.name).eraseDups
  value_eq : ∀ b ∈ bs.entries,
    (written.reverse.find? fun w => w.name = b.name).map Binding.value = some b.value
  isFinal_iff : ∀ b ∈ bs.entries, b.isFinal ↔ ∃ w ∈ written, w.name = b.name ∧ w.isFinal

theorem mem_entries_iff : b ∈ bs.entries ↔ bs.find? b.name = some b := by
  simp [find?_eq_some_iff]

theorem mem_entries_put_iff (h : bs.put b = .ok bs') {e : Binding α} :
    e ∈ bs'.entries ↔ e = b ∨ e ∈ bs.entries ∧ e.name ≠ b.name := by
  rw [mem_entries_iff, find?_of_put h]
  by_cases hname : e.name = b.name
  · simp [hname, eq_comm]
  · have hne : e ≠ b := fun heq => hname (heq ▸ rfl)
    simp [hname, hne, mem_entries_iff]

theorem names_put (h : bs.put b = .ok bs') :
    bs'.names = if b.name ∈ bs.names then bs.names else bs.names ++ [b.name] := by
  unfold names
  cases hfind : bs.find? b.name with
  | none =>
    have hnew : b.name ∉ bs.entries.map Binding.name := find?_eq_none_iff.1 hfind
    rw [entries_of_put_of_new h hfind, if_neg hnew, List.map_append]
    rfl
  | some old =>
    have hold : b.name ∈ bs.entries.map Binding.name := by
      obtain ⟨hmem, hname⟩ := find?_eq_some_iff.1 hfind
      exact hname ▸ List.mem_map_of_mem hmem
    rw [entries_of_put_of_old h hfind, if_pos hold, names_replaced]

/-- What a collection holds is what it would be left with if that was written to it. -/
theorem leftBy_entries (bs : Bindings α) : bs.LeftBy bs.entries := by
  refine ⟨(eraseDups_of_nodup bs.nodup_names).symm, ?_, ?_⟩
  · intro b hb
    have hnodup : (bs.entries.reverse.map Binding.name).Nodup := by
      rw [List.map_reverse, List.nodup_reverse]
      exact bs.nodup_names
    rw [find?_eq_some_of_mem hnodup (List.mem_reverse.2 hb), Option.map_some]
  · intro b hb
    constructor
    · intro hfinal
      exact ⟨b, hb, rfl, hfinal⟩
    · rintro ⟨w, hw, hname, hfinal⟩
      have hfind := find?_eq_some_iff.2 ⟨hw, hname⟩
      rw [mem_entries_iff.1 hb, Option.some.injEq] at hfind
      rwa [hfind]

theorem LeftBy.isFinal_eq_false (hleft : bs.LeftBy written) (h : bs.put b = .ok bs')
    {w : Binding α} (hw : w ∈ written) (hname : w.name = b.name) : w.isFinal = false := by
  have hmem : b.name ∈ bs.names := by
    rw [hleft.names_eq, List.mem_eraseDups, ← hname]
    exact List.mem_map_of_mem hw
  obtain ⟨old, hold, hname'⟩ := List.mem_map.1 hmem
  have hopen : old.isFinal = false := isFinal_of_put h (find?_eq_some_iff.2 ⟨hold, hname'⟩)
  rw [Bool.eq_false_iff] at hopen ⊢
  exact fun hfinal =>
    hopen ((hleft.isFinal_iff old hold).2 ⟨w, hw, hname.trans hname'.symm, hfinal⟩)

theorem LeftBy.put (hleft : bs.LeftBy written) (h : bs.put b = .ok bs') :
    bs'.LeftBy (written ++ [b]) := by
  refine ⟨?_, ?_, ?_⟩
  · rw [names_put h, List.map_append, List.map_singleton, eraseDups_concat, hleft.names_eq]
    simp only [List.mem_eraseDups]
  · intro e he
    rw [List.reverse_append, List.reverse_singleton, List.singleton_append]
    rcases (mem_entries_put_iff h).1 he with rfl | ⟨he, hne⟩
    · simp
    · rw [List.find?_cons_of_neg (by simpa using hne.symm), hleft.value_eq e he]
  · intro e he
    simp only [List.mem_append, List.mem_singleton, or_and_right, exists_or, exists_eq_left]
    rcases (mem_entries_put_iff h).1 he with rfl | ⟨he, hne⟩
    · have hold : ¬∃ w ∈ written, w.name = e.name ∧ w.isFinal := by
        rintro ⟨w, hw, hname, hfinal⟩
        rw [hleft.isFinal_eq_false h hw hname] at hfinal
        cases hfinal
      simp [hold]
    · simp [hne.symm, hleft.isFinal_iff e he]

/-- The final entries of the one collection stand in the other, each at the same place. -/
def KeepsFinal (bs bs' : Bindings α) : Prop :=
  ∀ (i : Nat) (b : Binding α), bs.entries[i]? = some b → b.isFinal → bs'.entries[i]? = some b

theorem KeepsFinal.refl (bs : Bindings α) : bs.KeepsFinal bs := fun _ _ hi _ => hi

theorem KeepsFinal.trans {bs₁ bs₂ : Bindings α} (h : bs.KeepsFinal bs₁) (h' : bs₁.KeepsFinal bs₂) :
    bs.KeepsFinal bs₂ :=
  fun i b hi hfinal => h' i b (h i b hi hfinal) hfinal

theorem keepsFinal_put (h : bs.put b = .ok bs') : bs.KeepsFinal bs' := by
  intro i e hi hfinal
  have hne : e.name ≠ b.name := by
    intro hname
    rw [isFinal_of_put h (find?_eq_some_iff.2 ⟨List.mem_of_getElem? hi, hname⟩)] at hfinal
    cases hfinal
  rw [entries_of_put h]
  split
  · rw [replaced, List.getElem?_map, hi, Option.map_some, if_neg hne]
  · rw [List.getElem?_append_left (List.getElem?_eq_some_iff.1 hi).1, hi]

end Bindings

namespace SymbolTable

/-! ## The writes by collection -/

namespace Write

/-- The variable that is written. -/
def var? : Write → Option (Binding Float)
  | setVariable name value => some ⟨name, value, false⟩
  | setFunction _ _ => none
  | defineConstant name value => some ⟨name, value, true⟩
  | defineBuiltin _ _ => none

/-- The function that is written. -/
def function? : Write → Option (Binding Expr)
  | setVariable _ _ => none
  | setFunction name body => some ⟨name, body, false⟩
  | defineConstant _ _ => none
  | defineBuiltin name function => some ⟨name, .builtin name function, true⟩

/-- The name that is written to. -/
def name : Write → String
  | setVariable name _ => name
  | setFunction name _ => name
  | defineConstant name _ => name
  | defineBuiltin name _ => name

end Write

variable {t t' : SymbolTable} {w : Write} {f : Fault}

/-- A write goes to one of the two collections. -/
theorem write_cases (t : SymbolTable) (w : Write) :
    (∃ b, w.var? = some b ∧ w.function? = none ∧ b.name = w.name ∧
      t.write w = t.putVariable b) ∨
    ∃ b, w.var? = none ∧ w.function? = some b ∧ b.name = w.name ∧
      t.write w = t.putFunction b := by
  cases w with
  | setVariable | defineConstant => exact .inl ⟨_, rfl, rfl, rfl, rfl⟩
  | setFunction | defineBuiltin => exact .inr ⟨_, rfl, rfl, rfl, rfl⟩

/-- The write goes to an entry that is final: there is one of its name in its own collection. -/
def MeetsFinal (t : SymbolTable) (w : Write) : Prop :=
  (w.var?.isSome ∧ ∃ old ∈ t.vars.entries, old.name = w.name ∧ old.isFinal) ∨
    w.function?.isSome ∧ ∃ old ∈ t.functions.entries, old.name = w.name ∧ old.isFinal

/-- A write fails exactly if it goes to an entry that is final. -/
theorem write_eq_error_iff :
    t.write w = .error f ↔ f = .cannotModify w.name ∧ t.MeetsFinal w := by
  unfold MeetsFinal
  rcases write_cases t w with ⟨b, hvar, hfunction, hname, hwrite⟩ |
    ⟨b, hvar, hfunction, hname, hwrite⟩
  · rw [hwrite, putVariable_eq_error_iff, hname, hvar, hfunction]
    simp [Bindings.find?_eq_some_iff, and_assoc]
  · rw [hwrite, putFunction_eq_error_iff, hname, hvar, hfunction]
    simp [Bindings.find?_eq_some_iff, and_assoc]

/-- What a write that succeeds does: one of the two collections is written to, and the other one is
left alone. -/
inductive Written (t : SymbolTable) (w : Write) : SymbolTable → Prop where
  | var (b : Binding Float) (vars : Bindings Float) (hvar : w.var? = some b)
      (hfunction : w.function? = none) (hput : t.vars.put b = .ok vars) :
      Written t w { t with vars }
  | function (b : Binding Expr) (functions : Bindings Expr) (hvar : w.var? = none)
      (hfunction : w.function? = some b) (hput : t.functions.put b = .ok functions) :
      Written t w { t with functions }

theorem written_of_write (h : t.write w = .ok t') : t.Written w t' := by
  rcases write_cases t w with ⟨b, hvar, hfunction, _, hwrite⟩ | ⟨b, hvar, hfunction, _, hwrite⟩
  · rw [hwrite] at h
    obtain ⟨vars, hput, rfl⟩ := putVariable_eq_ok_iff.1 h
    exact .var b vars hvar hfunction hput
  · rw [hwrite] at h
    obtain ⟨functions, hput, rfl⟩ := putFunction_eq_ok_iff.1 h
    exact .function b functions hvar hfunction hput

theorem unchanged_of_write (h : t.write w = .ok t') :
    (w.var? = none → t'.vars = t.vars) ∧ (w.function? = none → t'.functions = t.functions) := by
  cases written_of_write h with
  | var b vars hvar _ hput =>
    refine ⟨fun hnone => ?_, fun _ => rfl⟩
    rw [hvar] at hnone
    cases hnone
  | function b functions _ hfunction hput =>
    refine ⟨fun _ => rfl, fun hnone => ?_⟩
    rw [hfunction] at hnone
    cases hnone

/-! ## What one write leaves behind -/

/-- What the writes so far leave behind, a further one adds to. -/
theorem leftBy_write {vars : List (Binding Float)} {functions : List (Binding Expr)}
    (hvars : t.vars.LeftBy vars) (hfunctions : t.functions.LeftBy functions)
    (h : t.write w = .ok t') :
    t'.vars.LeftBy (vars ++ [w].filterMap Write.var?) ∧
      t'.functions.LeftBy (functions ++ [w].filterMap Write.function?) := by
  cases written_of_write h with
  | var b _ hvar hfunction hput =>
    exact ⟨by simpa [List.filterMap_cons_some hvar] using hvars.put hput,
      by simpa [List.filterMap_cons_none hfunction] using hfunctions⟩
  | function b _ hvar hfunction hput =>
    exact ⟨by simpa [List.filterMap_cons_none hvar] using hvars,
      by simpa [List.filterMap_cons_some hfunction] using hfunctions.put hput⟩

theorem keepsFinal_write (h : t.write w = .ok t') :
    t.vars.KeepsFinal t'.vars ∧ t.functions.KeepsFinal t'.functions := by
  cases written_of_write h with
  | var b _ _ _ hput => exact ⟨Bindings.keepsFinal_put hput, .refl _⟩
  | function b _ _ _ hput => exact ⟨.refl _, Bindings.keepsFinal_put hput⟩

/-! ## What many writes leave behind -/

/-- Those of the writes, made one after the other, that succeed. -/
@[simp] def accepted (t : SymbolTable) : List Write → List Write
  | [] => []
  | w :: ws =>
    match t.write w with
    | .ok t' => w :: t'.accepted ws
    | .error _ => t.accepted ws

theorem leftBy_afterWrites {vars : List (Binding Float)} {functions : List (Binding Expr)}
    (ws : List Write) (hvars : t.vars.LeftBy vars) (hfunctions : t.functions.LeftBy functions) :
    (t.afterWrites ws).vars.LeftBy (vars ++ (t.accepted ws).filterMap Write.var?) ∧
      (t.afterWrites ws).functions.LeftBy
        (functions ++ (t.accepted ws).filterMap Write.function?) := by
  induction ws generalizing t vars functions with
  | nil => simpa using ⟨hvars, hfunctions⟩
  | cons w ws ih =>
    unfold afterWrites accepted
    cases hwrite : t.write w with
    | error f => exact ih hvars hfunctions
    | ok t' =>
      obtain ⟨hvars', hfunctions'⟩ := leftBy_write hvars hfunctions hwrite
      dsimp only
      rw [← List.singleton_append, List.filterMap_append, List.filterMap_append,
        ← List.append_assoc, ← List.append_assoc]
      exact ih hvars' hfunctions'

theorem keepsFinal_afterWrites (t : SymbolTable) (ws : List Write) :
    t.vars.KeepsFinal (t.afterWrites ws).vars ∧
      t.functions.KeepsFinal (t.afterWrites ws).functions := by
  apply afterWrites_induction (P := fun t' =>
    t.vars.KeepsFinal t'.vars ∧ t.functions.KeepsFinal t'.functions)
  · rintro w _ t₁ t₂ ⟨hvars, hfunctions⟩ hwrite
    obtain ⟨hvars', hfunctions'⟩ := keepsFinal_write hwrite
    exact ⟨hvars.trans hvars', hfunctions.trans hfunctions'⟩
  · exact ⟨.refl _, .refl _⟩

theorem afterWrites_concat (t : SymbolTable) (ws : List Write) (w : Write) :
    t.afterWrites (ws ++ [w]) = (t.afterWrites ws).afterWrites [w] := by
  induction ws generalizing t with
  | nil => rfl
  | cons w' ws ih =>
    simp only [List.cons_append, afterWrites]
    cases t.write w' with
    | error f => exact ih t
    | ok t' => exact ih t'

theorem afterWrites_concat_of_error {ws : List Write} (h : (t.afterWrites ws).write w = .error f) :
    t.afterWrites (ws ++ [w]) = t.afterWrites ws := by
  simp [afterWrites_concat, h]

/-- After any writes, of which some may fail, each collection is what the bindings that it held at
first and those of the writes that succeeded leave behind. A write fails exactly if it goes to an
entry that is final, and changes nothing then; if it succeeds, it changes one of the collections
alone. The last two results are there, and an entry that is final stays as it is, where it is. -/
theorem afterWrites_leftBy (start : SymbolTable) (writes : List Write) :
    let t := start.afterWrites writes
    let written := start.accepted writes
    (t.vars.LeftBy (start.vars.entries ++ written.filterMap Write.var?) ∧
      t.functions.LeftBy (start.functions.entries ++ written.filterMap Write.function?)) ∧
    (t.vars.names.Nodup ∧ t.functions.names.Nodup) ∧
    (start = standard ∨ start = empty →
      lastResult ∈ t.vars.names ∧ resultBeforeLast ∈ t.vars.names) ∧
    (∀ w f, t.write w = .error f ↔ f = .cannotModify w.name ∧ t.MeetsFinal w) ∧
    (∀ w f, t.write w = .error f → start.afterWrites (writes ++ [w]) = t) ∧
    (∀ w t', t.write w = .ok t' →
      (w.var? = none → t'.vars = t.vars) ∧ (w.function? = none → t'.functions = t.functions)) ∧
    (∀ later, t.vars.KeepsFinal (t.afterWrites later).vars ∧
      t.functions.KeepsFinal (t.afterWrites later).functions) ∧
    ∀ name, (Fault.cannotModify name).kind = .mutation ∧
      (Fault.cannotModify name).message = "Cannot modify " ++ name := by
  intro t written
  refine ⟨leftBy_afterWrites writes start.vars.leftBy_entries start.functions.leftBy_entries,
    ⟨t.vars.nodup_names, t.functions.nodup_names⟩, ?_, fun w f => write_eq_error_iff,
    fun w f => afterWrites_concat_of_error, fun w t' => unchanged_of_write,
    keepsFinal_afterWrites t, fun name => ⟨rfl, rfl⟩⟩
  intro hstart
  obtain ⟨hlast, hbefore⟩ := isOpen_of_start hstart
  exact ⟨mem_names_afterWrites writes hlast.mem_names,
    mem_names_afterWrites writes hbefore.mem_names⟩

/-- A constant takes the place of a variable, and the write behind it fails. -/
example :
    (empty.afterWrites [.setVariable "a" 1, .setVariable "b" 2, .defineConstant "a" 3,
      .setVariable "a" 4]).vars.entries = results ++ [⟨"a", 3, true⟩, ⟨"b", 2, false⟩] := by
  decide +kernel

end SymbolTable

end Calculator
