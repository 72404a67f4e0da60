import Calculator.SymbolTable.Basic

/-!
# Writing to the symbol table

A write that succeeds touches one binding of one collection. It leaves the bindings before and
behind it where they are, and it can only meet a binding that is not final.

* `Bindings.put_eq_ok_iff`: the two ways in which a binding can be written.
* `putVariable_eq_ok_iff_assigned`, `putFunction_eq_ok_iff_assigned`: the same for the table.
* `afterWrites`: the table after some writes, of which some may fail.
* `mem_names_of_write`, `isOpen_of_write`: names are never lost, and only the definition of a
  constant makes a variable final.
-/

namespace Calculator

namespace Bindings

variable {α : Type}

/-- The collection `after` is `before` with `b` written to it: in the place of a binding of the
same name that is not final, or behind all others if no binding has that name. -/
inductive Assigned (before after : Bindings α) (b : Binding α) : Prop where
  | replaced (front back : List (Binding α)) (old : Binding α)
      (hbefore : before.entries = front ++ old :: back) (hname : old.name = b.name)
      (hopen : old.isFinal = false) (hafter : after.entries = front ++ b :: back)
  | appended (hnew : b.name ∉ before.names) (hafter : after.entries = before.entries ++ [b])

theorem eq_of_entries {bs bs' : Bindings α} (h : bs.entries = bs'.entries) : bs = bs' := by
  cases bs
  cases bs'
  cases h
  rfl

theorem replaced_of_not_mem {entries : List (Binding α)} {b : Binding α}
    (h : b.name ∉ entries.map Binding.name) : replaced entries b = entries := by
  have hkept : ∀ e ∈ entries, (if e.name = b.name then b else e) = id e := by
    intro e he
    have hne : e.name ≠ b.name := fun hname => h (hname ▸ List.mem_map_of_mem he)
    rw [if_neg hne, id]
  rw [replaced, List.map_congr_left hkept, List.map_id]

theorem replaced_append_cons {front back : List (Binding α)} {old b : Binding α}
    (hnodup : ((front ++ old :: back).map Binding.name).Nodup) (hname : old.name = b.name) :
    replaced (front ++ old :: back) b = front ++ b :: back := by
  rw [List.map_append, List.map_cons, List.nodup_append, List.nodup_cons, hname] at hnodup
  obtain ⟨_, ⟨hback, _⟩, hdisjoint⟩ := hnodup
  have hfront : b.name ∉ front.map Binding.name :=
    fun h => hdisjoint b.name h b.name List.mem_cons_self rfl
  have hsplit : replaced (front ++ old :: back) b =
      replaced front b ++ b :: replaced back b := by
    unfold replaced
    rw [List.map_append, List.map_cons, if_pos hname]
  rw [hsplit, replaced_of_not_mem hfront, replaced_of_not_mem hback]

theorem find?_of_entries {bs : Bindings α} {front back : List (Binding α)} {b : Binding α}
    (h : bs.entries = front ++ b :: back) : bs.find? b.name = some b := by
  rw [find?_eq_some_iff, h]
  exact ⟨List.mem_append_right _ List.mem_cons_self, rfl⟩

theorem exists_put_eq_ok {bs : Bindings α} {b : Binding α}
    (h : ∀ old, bs.find? b.name = some old → old.isFinal = false) :
    ∃ bs', bs.put b = .ok bs' := by
  cases hput : bs.put b with
  | ok bs' => exact ⟨bs', rfl⟩
  | error f =>
    obtain ⟨_, old, hfind, hfinal⟩ := put_eq_error_iff.1 hput
    rw [h old hfind] at hfinal
    cases hfinal

/-- A binding is never written over one that is final. -/
theorem isFinal_of_put {bs bs' : Bindings α} {b old : Binding α} (h : bs.put b = .ok bs')
    (hold : bs.find? b.name = some old) : old.isFinal = false := by
  by_cases hfinal : old.isFinal
  · rw [put_eq_error_iff.2 ⟨rfl, old, hold, hfinal⟩] at h
    cases h
  · exact Bool.eq_false_iff.2 hfinal

theorem assigned_of_put {bs bs' : Bindings α} {b : Binding α} (h : bs.put b = .ok bs') :
    bs.Assigned bs' b := by
  cases hfind : bs.find? b.name with
  | none => exact .appended (find?_eq_none_iff.1 hfind) (entries_of_put_of_new h hfind)
  | some old =>
    obtain ⟨hmem, hname⟩ := find?_eq_some_iff.1 hfind
    obtain ⟨front, back, hbefore⟩ := List.append_of_mem hmem
    have hnodup := bs.nodup_names
    rw [hbefore] at hnodup
    refine .replaced front back old hbefore hname (isFinal_of_put h hfind) ?_
    rw [entries_of_put_of_old h hfind, hbefore, replaced_append_cons hnodup hname]

/-- A binding is written in the place of the one of its name or behind all others, and whenever
one of the two can be done, it is done. -/
theorem put_eq_ok_iff {bs bs' : Bindings α} {b : Binding α} :
    bs.put b = .ok bs' ↔ bs.Assigned bs' b := by
  refine ⟨assigned_of_put, ?_⟩
  intro h
  cases h with
  | replaced front back old hbefore hname hopen hafter =>
    have hfind := find?_of_entries hbefore
    rw [hname] at hfind
    obtain ⟨bs₁, hput⟩ : ∃ bs₁, bs.put b = .ok bs₁ := by
      apply exists_put_eq_ok
      intro old' hfind'
      rw [hfind, Option.some.injEq] at hfind'
      rw [← hfind', hopen]
    have hnodup := bs.nodup_names
    rw [hbefore] at hnodup
    have hentries := entries_of_put_of_old hput hfind
    rw [hbefore, replaced_append_cons hnodup hname, ← hafter] at hentries
    rw [hput, eq_of_entries hentries]
  | appended hnew hafter =>
    have hfind := find?_eq_none_iff.2 hnew
    obtain ⟨bs₁, hput⟩ : ∃ bs₁, bs.put b = .ok bs₁ := by
      apply exists_put_eq_ok
      intro old hfind'
      rw [hfind] at hfind'
      cases hfind'
    have hentries := entries_of_put_of_new hput hfind
    rw [← hafter] at hentries
    rw [hput, eq_of_entries hentries]

/-- A write adds its name to those that there are. -/
theorem mem_names_put_iff {bs bs' : Bindings α} {b : Binding α} {name : String}
    (h : bs.put b = .ok bs') : name ∈ bs'.names ↔ name = b.name ∨ name ∈ bs.names := by
  rw [← Decidable.not_iff_not, not_or, ← find?_eq_none_iff, ← find?_eq_none_iff,
    find?_of_put h name]
  by_cases hname : name = b.name
  · simp [hname]
  · simp [hname]

theorem forall_names_of_put {P : String → Prop} {bs bs' : Bindings α} {b : Binding α}
    (h : bs.put b = .ok bs') (hb : P b.name) (hbs : ∀ name ∈ bs.names, P name) :
    ∀ name ∈ bs'.names, P name := by
  intro name hname
  rcases (mem_names_put_iff h).1 hname with rfl | hname
  · exact hb
  · exact hbs name hname

theorem mem_names_of_put {bs bs' : Bindings α} {b : Binding α} {name : String}
    (h : bs.put b = .ok bs') (hname : name ∈ bs.names) : name ∈ bs'.names :=
  (mem_names_put_iff h).2 (Or.inr hname)

end Bindings

namespace SymbolTable

variable {t t' : SymbolTable} {name : String}

/-! ## One write -/

theorem putVariable_eq_ok_iff_assigned {b : Binding Float} :
    t.putVariable b = .ok t' ↔ t.vars.Assigned t'.vars b ∧ t'.functions = t.functions := by
  rw [putVariable_eq_ok_iff]
  constructor
  · rintro ⟨vars, hput, rfl⟩
    exact ⟨Bindings.put_eq_ok_iff.1 hput, rfl⟩
  · rintro ⟨hassigned, hfunctions⟩
    refine ⟨t'.vars, Bindings.put_eq_ok_iff.2 hassigned, ?_⟩
    rw [← hfunctions]

theorem putFunction_eq_ok_iff_assigned {b : Binding Expr} :
    t.putFunction b = .ok t' ↔ t.functions.Assigned t'.functions b ∧ t'.vars = t.vars := by
  rw [putFunction_eq_ok_iff]
  constructor
  · rintro ⟨functions, hput, rfl⟩
    exact ⟨Bindings.put_eq_ok_iff.1 hput, rfl⟩
  · rintro ⟨hassigned, hvars⟩
    refine ⟨t'.functions, Bindings.put_eq_ok_iff.2 hassigned, ?_⟩
    rw [← hvars]

theorem find?_of_putVariable {b : Binding Float} (h : t.putVariable b = .ok t') (name : String) :
    t'.vars.find? name = if name = b.name then some b else t.vars.find? name := by
  obtain ⟨vars, hput, rfl⟩ := putVariable_eq_ok_iff.1 h
  exact Bindings.find?_of_put hput name

theorem putVariable_eq_error_iff {b : Binding Float} {f : Fault} :
    t.putVariable b = .error f ↔
      f = .cannotModify b.name ∧ ∃ old, t.vars.find? b.name = some old ∧ old.isFinal := by
  rw [putVariable, map_eq_error_iff, Bindings.put_eq_error_iff]

theorem putFunction_eq_error_iff {b : Binding Expr} {f : Fault} :
    t.putFunction b = .error f ↔
      f = .cannotModify b.name ∧ ∃ old, t.functions.find? b.name = some old ∧ old.isFinal := by
  rw [putFunction, map_eq_error_iff, Bindings.put_eq_error_iff]

/-- The variable is in the table and may change. -/
def IsOpen (t : SymbolTable) (name : String) : Prop :=
  ∃ value, t.vars.find? name = some ⟨name, value, false⟩

theorem IsOpen.mem_names (h : t.IsOpen name) : name ∈ t.vars.names := by
  obtain ⟨value, hfind⟩ := h
  exact List.mem_map.2 ⟨_, (Bindings.find?_eq_some_iff.1 hfind).1, rfl⟩

/-- The last two results are in a table from the beginning, and may change. -/
theorem isOpen_of_start {start : SymbolTable} (hstart : start = standard ∨ start = empty) :
    start.IsOpen lastResult ∧ start.IsOpen resultBeforeLast := by
  rcases hstart with rfl | rfl
  · exact ⟨⟨0, rfl⟩, ⟨0, rfl⟩⟩
  · exact ⟨⟨0, rfl⟩, ⟨0, rfl⟩⟩

theorem exists_find?_of_mem_names (h : name ∈ t.vars.names) :
    ∃ value isFinal, t.vars.find? name = some ⟨name, value, isFinal⟩ := by
  cases hfind : t.vars.find? name with
  | none => exact absurd h (Bindings.find?_eq_none_iff.1 hfind)
  | some b =>
    cases Bindings.name_of_find?_eq_some hfind
    exact ⟨b.value, b.isFinal, rfl⟩

theorem isOpen_of_putVariable {b : Binding Float} (h : t.putVariable b = .ok t')
    (hb : b.name = name → b.isFinal = false) (hopen : t.IsOpen name) : t'.IsOpen name := by
  obtain ⟨value, hfind⟩ := hopen
  by_cases hname : name = b.name
  · refine ⟨b.value, ?_⟩
    rw [find?_of_putVariable h, if_pos hname, hname, ← hb hname.symm]
  · refine ⟨value, ?_⟩
    rw [find?_of_putVariable h, if_neg hname, hfind]

/-- Names of variables are never lost. -/
theorem mem_names_of_write {w : Write} (h : t.write w = .ok t') (hname : name ∈ t.vars.names) :
    name ∈ t'.vars.names := by
  cases w with
  | setVariable _ _ | defineConstant _ _ =>
    obtain ⟨vars, hput, rfl⟩ := putVariable_eq_ok_iff.1 h
    exact Bindings.mem_names_of_put hput hname
  | setFunction _ _ | defineBuiltin _ _ =>
    rw [vars_of_putFunction h]
    exact hname

/-- Only the definition of a constant makes a variable final. -/
theorem isOpen_of_write {w : Write} (h : t.write w = .ok t')
    (hw : ∀ value, w ≠ .defineConstant name value) (hopen : t.IsOpen name) : t'.IsOpen name := by
  cases w with
  | setVariable _ _ => exact isOpen_of_putVariable h (fun _ => rfl) hopen
  | defineConstant n v => exact isOpen_of_putVariable h (fun hn => absurd (hn ▸ rfl) (hw v)) hopen
  | setFunction _ _ | defineBuiltin _ _ =>
    unfold IsOpen
    rw [vars_of_putFunction h]
    exact hopen

/-! ## Many writes -/

/-- The table after some writes, those that fail left out. -/
@[simp] def afterWrites (t : SymbolTable) : List Write → SymbolTable
  | [] => t
  | w :: ws =>
    match t.write w with
    | .ok t' => t'.afterWrites ws
    | .error _ => t.afterWrites ws

/-- What the writes that succeed keep holds after all of them. -/
theorem afterWrites_induction {P : SymbolTable → Prop} {ws : List Write}
    (hstep : ∀ w ∈ ws, ∀ t t' : SymbolTable, P t → t.write w = .ok t' → P t') (ht : P t) :
    P (t.afterWrites ws) := by
  induction ws generalizing t with
  | nil => exact ht
  | cons w ws ih =>
    have hrest := fun v hv => hstep v (List.mem_cons_of_mem w hv)
    unfold afterWrites
    cases hwrite : t.write w with
    | ok t' => exact ih hrest (hstep w List.mem_cons_self t t' ht hwrite)
    | error f => exact ih hrest ht

theorem mem_names_afterWrites (ws : List Write) (h : name ∈ t.vars.names) :
    name ∈ (t.afterWrites ws).vars.names :=
  afterWrites_induction (fun _ _ _ _ ht hwrite => mem_names_of_write hwrite ht) h

theorem isOpen_afterWrites {ws : List Write}
    (hws : ∀ value, .defineConstant name value ∉ ws) (h : t.IsOpen name) :
    (t.afterWrites ws).IsOpen name := by
  refine afterWrites_induction (P := fun t => t.IsOpen name) ?_ h
  intro w hw t t' ht hwrite
  exact isOpen_of_write hwrite (fun value hvalue => hws value (hvalue ▸ hw)) ht

end SymbolTable

end Calculator
