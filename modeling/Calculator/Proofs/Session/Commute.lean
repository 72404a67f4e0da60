import Calculator.Proofs.Session.Mention

/-!
# Definitions in either order

Two definitions of different names, neither of which mentions the name of the other on its right,
can be put in either order. Each is answered alike in both, be it with zero or with a fault, and the
tables that they lead to hold the same. Only if both names are new to one collection, then they come
last in it, in the order of the definitions.

* `Bindings.AlikeBehind`: two collections that differ in the order of two new bindings at most.
* `Bindings.tryPut_comm`: bindings of different names, written in either order.
* `pending`, `run_of_defines`: a definition is read, comes to a write, and the write is tried.
* `AgreeOff.pending_eq`, `AgreeOff.answer_eq`: a definition in tables that differ under other names.
* `run_definitions_comm`: two definitions in either order.
-/

namespace Calculator

open Text

/-! ## Writing two bindings -/

namespace Bindings

variable {α : Type} {bs bs₁ bs₂ : Bindings α} {b c : Binding α} {f : Fault}

/-- The collections are the same, unless both are `bs` with two more bindings behind the others;
these may stand in either order. -/
inductive AlikeBehind (bs bs₁ bs₂ : Bindings α) : Prop where
  | same (h : bs₁ = bs₂)
  | swapped (b c : Binding α) (h₁ : bs₁.entries = bs.entries ++ [b, c])
      (h₂ : bs₂.entries = bs.entries ++ [c, b])

/-- The collection after a write, if there is one to make. One that fails changes nothing. -/
def tryPut (bs : Bindings α) : Option (Binding α) → Bindings α
  | none => bs
  | some b =>
    match bs.put b with
    | .ok bs' => bs'
    | .error _ => bs

@[simp] theorem tryPut_of_ok (h : bs.put b = .ok bs₁) : bs.tryPut (some b) = bs₁ := by
  unfold tryPut
  simp only [h]

@[simp] theorem tryPut_of_error (h : bs.put b = .error f) : bs.tryPut (some b) = bs := by
  unfold tryPut
  simp only [h]

theorem find?_tryPut_of_ne (hne : c.name ≠ b.name) :
    (bs.tryPut (some b)).find? c.name = bs.find? c.name := by
  cases hput : bs.put b with
  | ok bs' => rw [tryPut_of_ok hput, find?_of_put hput, if_neg hne]
  | error f => rw [tryPut_of_error hput]

/-- Whether a write fails does not hang on writes under other names. -/
theorem put_tryPut_eq_error_iff (hne : c.name ≠ b.name) :
    (bs.tryPut (some b)).put c = .error f ↔ bs.put c = .error f := by
  rw [put_eq_error_iff, put_eq_error_iff, find?_tryPut_of_ne hne]

theorem replaced_comm (hne : b.name ≠ c.name) (entries : List (Binding α)) :
    replaced (replaced entries b) c = replaced (replaced entries c) b := by
  unfold replaced
  rw [List.map_map, List.map_map]
  apply List.map_congr_left
  intro e _
  simp only [Function.comp_apply]
  split_ifs with hb hc hc <;> simp_all

theorem replaced_concat (hne : b.name ≠ c.name) (entries : List (Binding α)) :
    replaced (entries ++ [b]) c = replaced entries c ++ [b] := by
  unfold replaced
  rw [List.map_append, List.map_singleton, if_neg hne]

/-- The order matters only if both names are new, and then each binding comes last in its turn. -/
theorem put_comm {bs₁₂ bs₂₁ : Bindings α} (hne : b.name ≠ c.name) (hb : bs.put b = .ok bs₁)
    (hbc : bs₁.put c = .ok bs₁₂) (hc : bs.put c = .ok bs₂) (hcb : bs₂.put b = .ok bs₂₁) :
    bs.AlikeBehind bs₁₂ bs₂₁ := by
  have hkeptb : bs₂.find? b.name = bs.find? b.name := by rw [find?_of_put hc, if_neg hne]
  have hkeptc : bs₁.find? c.name = bs.find? c.name := by rw [find?_of_put hb, if_neg hne.symm]
  cases hfindb : bs.find? b.name with
  | none =>
    have hnewb := hkeptb.trans hfindb
    cases hfindc : bs.find? c.name with
    | none =>
      have hnewc := hkeptc.trans hfindc
      refine .swapped b c ?_ ?_
      · simp [entries_of_put_of_new hbc hnewc, entries_of_put_of_new hb hfindb]
      · simp [entries_of_put_of_new hcb hnewb, entries_of_put_of_new hc hfindc]
    | some old =>
      refine .same (eq_of_entries ?_)
      rw [entries_of_put_of_old hbc (hkeptc.trans hfindc), entries_of_put_of_new hb hfindb,
        entries_of_put_of_new hcb hnewb, entries_of_put_of_old hc hfindc, replaced_concat hne]
  | some old =>
    have holdb := hkeptb.trans hfindb
    cases hfindc : bs.find? c.name with
    | none =>
      refine .same (eq_of_entries ?_)
      rw [entries_of_put_of_new hbc (hkeptc.trans hfindc), entries_of_put_of_old hb hfindb,
        entries_of_put_of_old hcb holdb, entries_of_put_of_new hc hfindc,
        replaced_concat hne.symm]
    | some old' =>
      refine .same (eq_of_entries ?_)
      rw [entries_of_put_of_old hbc (hkeptc.trans hfindc), entries_of_put_of_old hb hfindb,
        entries_of_put_of_old hcb holdb, entries_of_put_of_old hc hfindc, replaced_comm hne]

theorem tryPut_comm {b? c? : Option (Binding α)}
    (hne : ∀ b ∈ b?, ∀ c ∈ c?, b.name ≠ c.name) :
    bs.AlikeBehind ((bs.tryPut b?).tryPut c?) ((bs.tryPut c?).tryPut b?) := by
  cases b? with
  | none => exact .same rfl
  | some b =>
    cases c? with
    | none => exact .same rfl
    | some c =>
      have hbc : b.name ≠ c.name := hne b rfl c rfl
      cases hb : bs.put b with
      | error f =>
        rw [tryPut_of_error hb, tryPut_of_error ((put_tryPut_eq_error_iff hbc).2 hb)]
        exact .same rfl
      | ok bs₁ =>
        cases hc : bs.put c with
        | error f =>
          rw [tryPut_of_error hc, tryPut_of_error ((put_tryPut_eq_error_iff hbc.symm).2 hc)]
          exact .same rfl
        | ok bs₂ =>
          cases hbc' : (bs.tryPut (some b)).put c with
          | error f =>
            rw [put_tryPut_eq_error_iff hbc.symm, hc] at hbc'
            cases hbc'
          | ok bs₁₂ =>
            cases hcb' : (bs.tryPut (some c)).put b with
            | error f =>
              rw [put_tryPut_eq_error_iff hbc, hb] at hcb'
              cases hcb'
            | ok bs₂₁ =>
              rw [tryPut_of_ok hbc', tryPut_of_ok hcb']
              rw [tryPut_of_ok hb] at hbc'
              rw [tryPut_of_ok hc] at hcb'
              exact put_comm hbc hb hbc' hc hcb'

end Bindings

/-! ## What a definition comes to -/

/-- The name that a definition is for. -/
def Target.name : Target → String
  | number name => name
  | function name => name

/-- The line defines what `target` names, with the text `right` on its right side. -/
def Line.Defines (line : Line) (target : Target) (right : String) : Prop :=
  ∃ left, line = .definition left right ∧ Target.ofText? left = some target

namespace SymbolTable

variable {s t t' : SymbolTable} {w : Write} {f : Fault} {line right : String} {target : Target}
  {names : List String}

/-- The write that a definition comes to, unless its right side fails. -/
def pending (t : SymbolTable) (right : String) : Target → Except Fault Write
  | .number name => (t.valueOf right).map (.setVariable name)
  | .function name => (t.compile right).map (.setFunction name)

theorem name_of_pending (h : t.pending right target = .ok w) : w.name = target.name := by
  cases target with
  | number name =>
    obtain ⟨value, _, rfl⟩ := map_eq_ok_iff.1 h
    rfl
  | function name =>
    obtain ⟨body, _, rfl⟩ := map_eq_ok_iff.1 h
    rfl

theorem define_eq {left : String} (h : Target.ofText? left = some target) :
    t.define left right = t.pending right target >>= t.write := by
  unfold pending
  cases target with
  | number name =>
    rw [define_of_number h]
    cases t.valueOf right <;> rfl
  | function name =>
    rw [define_of_function h]
    cases t.compile right <;> rfl

/-- The answer to a definition, and the table after it. -/
theorem run_of_defines (h : (Line.ofText line).Defines target right) :
    (t.run line).1 = (t.pending right target >>= t.write).map (fun _ => 0) ∧
      (t.run line).2 = t.afterWrites (t.pending right target).toOption.toList := by
  obtain ⟨left, hline, hleft⟩ := h
  unfold run
  simp only [hline, define_eq hleft]
  cases hpending : t.pending right target with
  | error f => exact ⟨rfl, rfl⟩
  | ok w =>
    simp only [ok_bind, Except.toOption, Option.toList, afterWrites]
    cases t.write w <;> exact ⟨rfl, rfl⟩

theorem answer_of_defines (h : (Line.ofText line).Defines target right) {answer : Float}
    (hanswer : (t.run line).1 = .ok answer) : answer = 0 := by
  rw [(run_of_defines h).1] at hanswer
  obtain ⟨_, _, hzero⟩ := map_eq_ok_iff.1 hanswer
  exact hzero

theorem agreeOff_run_definition (h : (Line.ofText line).Defines target right) :
    t.AgreeOff (t.run line).2 [target.name] := by
  rw [(run_of_defines h).2]
  cases hpending : t.pending right target with
  | error f => exact .refl t _
  | ok w =>
    simp only [Except.toOption, Option.toList, afterWrites]
    cases hwrite : t.write w with
    | error f => exact .refl t _
    | ok t' =>
      exact agreeOff_of_write hwrite (name_of_pending hpending ▸ List.mem_singleton_self _)

/-! ## A definition in tables that differ under other names -/

theorem AgreeOff.pending_eq (h : s.AgreeOff t names)
    (hright : ∀ name ∈ names, ¬s.Mentions right name) (target : Target) :
    s.pending right target = t.pending right target := by
  cases target with
  | number name => simp only [pending, h.valueOf_eq hright]
  | function name => simp only [pending, h.compile_eq hright]

theorem meetsFinal_iff : t.MeetsFinal w ↔
    (w.var?.isSome ∧ ∃ old, t.vars.find? w.name = some old ∧ old.isFinal) ∨
      w.function?.isSome ∧ ∃ old, t.functions.find? w.name = some old ∧ old.isFinal := by
  simp only [MeetsFinal, Bindings.find?_eq_some_iff, and_assoc]

/-- A write fails against the same final entries. -/
theorem AgreeOff.write_eq_error_iff (h : s.AgreeOff t names) (hw : w.name ∉ names) :
    s.write w = .error f ↔ t.write w = .error f := by
  rw [SymbolTable.write_eq_error_iff, SymbolTable.write_eq_error_iff, meetsFinal_iff,
    meetsFinal_iff, h.vars _ hw, h.functions _ hw]

theorem map_congr_of_error_iff {α β : Type} {x y : Except Fault α}
    (h : ∀ f, x = .error f ↔ y = .error f) (b : β) :
    x.map (fun _ => b) = y.map (fun _ => b) := by
  cases x with
  | error f =>
    rw [(h f).1 rfl]
  | ok a =>
    cases y with
    | error f => cases (h f).2 rfl
    | ok a' => rfl

/-- A definition is answered alike. -/
theorem AgreeOff.answer_eq (h : s.AgreeOff t names) (hname : target.name ∉ names)
    (hright : ∀ name ∈ names, ¬s.Mentions right name)
    (hline : (Line.ofText line).Defines target right) : (s.run line).1 = (t.run line).1 := by
  rw [(run_of_defines hline).1, (run_of_defines hline).1, ← h.pending_eq hright]
  cases hpending : s.pending right target with
  | error f => simp
  | ok w =>
    have hw : w.name ∉ names := by rwa [name_of_pending hpending]
    exact map_congr_of_error_iff (fun f => h.write_eq_error_iff hw) 0

/-! ## Two definitions -/

theorem collections_afterWrites_singleton (t : SymbolTable) (w : Write) :
    (t.afterWrites [w]).vars = t.vars.tryPut w.var? ∧
      (t.afterWrites [w]).functions = t.functions.tryPut w.function? := by
  unfold afterWrites
  rcases write_cases t w with ⟨b, hvar, hfunction, _, hwrite⟩ | ⟨b, hvar, hfunction, _, hwrite⟩
  · rw [hwrite, hvar, hfunction]
    unfold putVariable
    cases hput : t.vars.put b with
    | ok vars => exact ⟨(Bindings.tryPut_of_ok hput).symm, rfl⟩
    | error f => exact ⟨(Bindings.tryPut_of_error hput).symm, rfl⟩
  · rw [hwrite, hvar, hfunction]
    unfold putFunction
    cases hput : t.functions.put b with
    | ok functions => exact ⟨rfl, (Bindings.tryPut_of_ok hput).symm⟩
    | error f => exact ⟨rfl, (Bindings.tryPut_of_error hput).symm⟩

theorem collections_run (h : (Line.ofText line).Defines target right) :
    (t.run line).2.vars = t.vars.tryPut ((t.pending right target).toOption.bind Write.var?) ∧
      (t.run line).2.functions =
        t.functions.tryPut ((t.pending right target).toOption.bind Write.function?) := by
  rw [(run_of_defines h).2]
  cases t.pending right target with
  | error f => exact ⟨rfl, rfl⟩
  | ok w => exact collections_afterWrites_singleton t w

theorem name_of_mem_pending {α : Type} {binding? : Write → Option (Binding α)}
    (hbinding : ∀ w b, binding? w = some b → b.name = w.name) {b : Binding α}
    (h : b ∈ (t.pending right target).toOption.bind binding?) : b.name = target.name := by
  cases hpending : t.pending right target with
  | error f =>
    rw [hpending] at h
    cases h
  | ok w =>
    rw [hpending] at h
    rw [hbinding w b h, name_of_pending hpending]

theorem after_pair (t : SymbolTable) (line₁ line₂ : String) :
    t.after [line₁, line₂] = ((t.run line₁).2.run line₂).2 := rfl

/-- Definitions of different names, neither of which mentions the name of the other, can be put in
either order. Each has the same answer in both, zero or the same fault. Both orders lead to the same
variables and functions, but for the order of the two bindings that come last, if both are new to
one collection. -/
theorem run_definitions_comm (t : SymbolTable) (line₁ line₂ right₁ right₂ : String)
    (target₁ target₂ : Target) (h₁ : (Line.ofText line₁).Defines target₁ right₁)
    (h₂ : (Line.ofText line₂).Defines target₂ right₂) (hne : target₁.name ≠ target₂.name)
    (hright₁ : ¬t.Mentions right₁ target₂.name) (hright₂ : ¬t.Mentions right₂ target₁.name) :
    (((t.run line₂).2.run line₁).1 = (t.run line₁).1 ∧
      ((t.run line₁).2.run line₂).1 = (t.run line₂).1) ∧
    (∀ line ∈ [line₁, line₂], ∀ answer, (t.run line).1 = .ok answer → answer = 0) ∧
    t.vars.AlikeBehind (t.after [line₁, line₂]).vars (t.after [line₂, line₁]).vars ∧
    t.functions.AlikeBehind (t.after [line₁, line₂]).functions
      (t.after [line₂, line₁]).functions := by
  have hagree₁ : t.AgreeOff (t.run line₁).2 [target₁.name] := agreeOff_run_definition h₁
  have hagree₂ : t.AgreeOff (t.run line₂).2 [target₂.name] := agreeOff_run_definition h₂
  replace hright₁ : ∀ name ∈ [target₂.name], ¬t.Mentions right₁ name :=
    List.forall_mem_singleton.2 hright₁
  replace hright₂ : ∀ name ∈ [target₁.name], ¬t.Mentions right₂ name :=
    List.forall_mem_singleton.2 hright₂
  have hpending₁ := hagree₂.pending_eq hright₁ target₁
  have hpending₂ := hagree₁.pending_eq hright₂ target₂
  have hnames {α : Type} {binding? : Write → Option (Binding α)}
      (hbinding : ∀ w b, binding? w = some b → b.name = w.name) :
      ∀ b ∈ (t.pending right₁ target₁).toOption.bind binding?,
        ∀ c ∈ (t.pending right₂ target₂).toOption.bind binding?, b.name ≠ c.name := by
    intro b hb c hc
    rwa [name_of_mem_pending hbinding hb, name_of_mem_pending hbinding hc]
  refine ⟨⟨?_, ?_⟩, ?_, ?_, ?_⟩
  · exact (hagree₂.answer_eq (mt List.mem_singleton.1 hne) hright₁ h₁).symm
  · exact (hagree₁.answer_eq (mt List.mem_singleton.1 hne.symm) hright₂ h₂).symm
  · simp only [List.forall_mem_cons, List.not_mem_nil, false_implies, implies_true, and_true]
    exact ⟨fun _ => answer_of_defines h₁, fun _ => answer_of_defines h₂⟩
  · rw [after_pair, after_pair, (collections_run h₂).1, (collections_run h₁).1,
      (collections_run h₁).1, (collections_run h₂).1, ← hpending₁, ← hpending₂]
    exact Bindings.tryPut_comm (hnames fun _ _ => name_of_var?)
  · rw [after_pair, after_pair, (collections_run h₂).2, (collections_run h₁).2,
      (collections_run h₁).2, (collections_run h₂).2, ← hpending₁, ← hpending₂]
    exact Bindings.tryPut_comm (hnames fun _ _ => name_of_function?)

/-- Both names are new. The right side of the first definition calls `g`, whose body calls `f`; that
of the second calls `f` itself, with the variable that `f` reads. -/
theorem run_definitions_comm_swapped :
    let t := standard.after ["k = 3", "f(x) = x * k", "g(x) = f(x) + 1"]
    ((Line.ofText "a = g(2)").Defines (.number "a") "g(2)" ∧
      (Line.ofText "b=f(k) ").Defines (.number "b") "f(k)" ∧
      ¬t.Mentions "g(2)" "b" ∧ ¬t.Mentions "f(k)" "a") ∧
      (((t.run "b=f(k) ").2.run "a = g(2)").1 = (t.run "a = g(2)").1 ∧
        ((t.run "a = g(2)").2.run "b=f(k) ").1 = (t.run "b=f(k) ").1) ∧
      t.vars.AlikeBehind (t.after ["a = g(2)", "b=f(k) "]).vars
        (t.after ["b=f(k) ", "a = g(2)"]).vars ∧
      (t.after ["a = g(2)", "b=f(k) "]).vars.entries =
        t.vars.entries ++ [⟨"a", 7, false⟩, ⟨"b", 9, false⟩] := by
  intro t
  have h₁ : (Line.ofText "a = g(2)").Defines (.number "a") "g(2)" := ⟨"a", by decide +kernel⟩
  have h₂ : (Line.ofText "b=f(k) ").Defines (.number "b") "f(k)" := ⟨"b", by decide +kernel⟩
  have hright₁ : ¬t.Mentions "g(2)" "b" := by
    apply not_mentions_of_closed
      [⟨.call, "g"⟩, ⟨.leftBracket, "("⟩, ⟨.number, "2"⟩, ⟨.rightBracket, ")"⟩]
      ["f", "g"] <;> decide +kernel
  have hright₂ : ¬t.Mentions "f(k)" "a" := by
    apply not_mentions_of_closed
      [⟨.call, "f"⟩, ⟨.leftBracket, "("⟩, ⟨.ident, "k"⟩, ⟨.rightBracket, ")"⟩]
      ["f"] <;> decide +kernel
  obtain ⟨hanswers, _, hvars, _⟩ :=
    run_definitions_comm t _ _ _ _ _ _ h₁ h₂ (by decide) hright₁ hright₂
  exact ⟨⟨h₁, h₂, hright₁, hright₂⟩, hanswers, hvars, by decide +kernel⟩

end SymbolTable

end Calculator
