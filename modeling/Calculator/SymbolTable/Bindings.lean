import Calculator.Fault

/-!
# Bindings

A collection of named values that keeps the order in which the names came. A value can be replaced
in its place, unless the binding is final.

* `find?_eq_some_iff`: a name finds the one binding that bears it.
* `put_eq_error_iff`: a write fails only against a final binding of the same name.
* `find?_of_put`: after a write its name finds what was written, and every other name finds what
  it found before.
* `entries_of_put`: a new name comes last, and a write to an old one moves nothing.
-/

namespace Calculator

/-- A name with its value; a final binding is never changed (symbols header:20-38, `Symbol`). -/
structure Binding (α : Type) where
  name : String
  value : α
  isFinal : Bool
deriving DecidableEq, Repr

/-- Bindings in the order in which their names came, each name once. -/
structure Bindings (α : Type) where
  entries : List (Binding α)
  nodup_names : (entries.map Binding.name).Nodup
deriving DecidableEq

namespace Bindings

variable {α : Type}

/-- The names, in order. -/
def names (bs : Bindings α) : List String := bs.entries.map Binding.name

/-- The binding of a name (symbols:23-31, `find_named`). -/
def find? (bs : Bindings α) (name : String) : Option (Binding α) :=
  bs.entries.find? fun e => e.name = name

/-! ## Finding a name -/

theorem name_of_find?_eq_some {bs : Bindings α} {name : String} {b : Binding α}
    (h : bs.find? name = some b) : b.name = name := by
  unfold find? at h
  simpa using List.find?_some h

theorem find?_eq_none_iff {bs : Bindings α} {name : String} :
    bs.find? name = none ↔ name ∉ bs.names := by
  simp only [find?, names, List.find?_eq_none, List.mem_map, not_exists, not_and,
    decide_eq_true_eq]

theorem find?_eq_some_of_mem {entries : List (Binding α)}
    (hnodup : (entries.map Binding.name).Nodup) {b : Binding α} (hb : b ∈ entries) :
    entries.find? (fun e => e.name = b.name) = some b := by
  induction entries with
  | nil => exact absurd hb List.not_mem_nil
  | cons e es ih =>
    rw [List.map_cons, List.nodup_cons] at hnodup
    rcases List.mem_cons.1 hb with rfl | hes
    · exact List.find?_cons_of_pos (decide_eq_true rfl)
    · have hne : e.name ≠ b.name := fun h =>
        hnodup.1 (h ▸ List.mem_map_of_mem hes)
      rw [List.find?_cons_of_neg (by simpa using hne)]
      exact ih hnodup.2 hes

theorem find?_eq_some_iff {bs : Bindings α} {name : String} {b : Binding α} :
    bs.find? name = some b ↔ b ∈ bs.entries ∧ b.name = name := by
  constructor
  · intro h
    exact ⟨List.mem_of_find?_eq_some h, name_of_find?_eq_some h⟩
  · rintro ⟨hb, rfl⟩
    exact find?_eq_some_of_mem bs.nodup_names hb

/-! ## Writing a binding -/

/-- The bindings with `b` in the place of the one of the same name. -/
def replaced (entries : List (Binding α)) (b : Binding α) : List (Binding α) :=
  entries.map fun e => if e.name = b.name then b else e

@[simp] theorem names_replaced (entries : List (Binding α)) (b : Binding α) :
    (replaced entries b).map Binding.name = entries.map Binding.name := by
  rw [replaced, List.map_map]
  apply List.map_congr_left
  intro e _
  rw [Function.comp_apply]
  split
  · next h => exact h.symm
  · rfl

theorem nodup_names_append {bs : Bindings α} {b : Binding α} (h : bs.find? b.name = none) :
    ((bs.entries ++ [b]).map Binding.name).Nodup := by
  have hb : b.name ∉ bs.entries.map Binding.name := find?_eq_none_iff.1 h
  rw [List.map_append, List.nodup_append]
  refine ⟨bs.nodup_names, by simp, ?_⟩
  intro n hn m hm
  rw [List.map_singleton, List.mem_singleton] at hm
  rw [hm]
  exact fun hnm => hb (hnm ▸ hn)

/-- Writes a binding: behind all others if its name is new, and otherwise in the place of the
binding of that name, if that is not final (symbols:33-43, `define`; symbols header:29-32,
`set_to`). -/
def put (bs : Bindings α) (b : Binding α) : Except Fault (Bindings α) :=
  match h : bs.find? b.name with
  | none => .ok ⟨bs.entries ++ [b], nodup_names_append h⟩
  | some old =>
    if old.isFinal then .error (.cannotModify b.name)
    else .ok ⟨replaced bs.entries b, by rw [names_replaced]; exact bs.nodup_names⟩

theorem put_eq_error_iff {bs : Bindings α} {b : Binding α} {f : Fault} :
    bs.put b = .error f ↔
      f = .cannotModify b.name ∧ ∃ old, bs.find? b.name = some old ∧ old.isFinal := by
  unfold put
  split
  · next h => simp [h]
  · next old h =>
    split
    · next hf =>
      constructor
      · intro he
        cases he
        exact ⟨rfl, old, h, hf⟩
      · rintro ⟨rfl, _⟩
        rfl
    · next hf =>
      constructor
      · intro he
        cases he
      · rintro ⟨_, old', hold, hfinal⟩
        rw [h] at hold
        cases hold
        exact absurd hfinal hf

theorem entries_of_put {bs bs' : Bindings α} {b : Binding α} (h : bs.put b = .ok bs') :
    bs'.entries =
      if (bs.find? b.name).isSome then replaced bs.entries b else bs.entries ++ [b] := by
  unfold put at h
  split at h
  · next hfind =>
    cases h
    simp [hfind]
  · next old hfind =>
    split at h
    · cases h
    · cases h
      simp [hfind]

theorem entries_of_put_of_new {bs bs' : Bindings α} {b : Binding α} (h : bs.put b = .ok bs')
    (hnew : bs.find? b.name = none) : bs'.entries = bs.entries ++ [b] := by
  simp [entries_of_put h, hnew]

theorem entries_of_put_of_old {bs bs' : Bindings α} {b old : Binding α} (h : bs.put b = .ok bs')
    (hold : bs.find? b.name = some old) : bs'.entries = replaced bs.entries b := by
  simp [entries_of_put h, hold]

theorem find?_replaced_self {entries : List (Binding α)} {b old : Binding α}
    (h : entries.find? (fun e => e.name = b.name) = some old) :
    (replaced entries b).find? (fun e => e.name = b.name) = some b := by
  induction entries with
  | nil => cases h
  | cons e es ih =>
    rw [replaced, List.map_cons]
    by_cases he : e.name = b.name
    · rw [if_pos he]
      exact List.find?_cons_of_pos (decide_eq_true rfl)
    · rw [if_neg he, List.find?_cons_of_neg (by simpa using he)]
      rw [List.find?_cons_of_neg (by simpa using he)] at h
      exact ih h

theorem find?_replaced_of_ne {b : Binding α} {name : String} (hne : name ≠ b.name)
    (entries : List (Binding α)) :
    (replaced entries b).find? (fun e => e.name = name) =
      entries.find? (fun e => e.name = name) := by
  induction entries with
  | nil => rfl
  | cons e es ih =>
    rw [replaced, List.map_cons, List.find?_cons, List.find?_cons]
    by_cases he : e.name = b.name
    · have h₁ : decide (b.name = name) = false := decide_eq_false (Ne.symm hne)
      have h₂ : decide (e.name = name) = false := by rw [he]; exact h₁
      rw [if_pos he, h₁, h₂]
      exact ih
    · rw [if_neg he]
      split
      · rfl
      · exact ih

theorem find?_of_put {bs bs' : Bindings α} {b : Binding α} (h : bs.put b = .ok bs')
    (name : String) : bs'.find? name = if name = b.name then some b else bs.find? name := by
  unfold find?
  cases hfind : bs.find? b.name with
  | none =>
    rw [entries_of_put_of_new h hfind, List.find?_append]
    by_cases hname : name = b.name
    · subst hname
      unfold find? at hfind
      rw [if_pos rfl, hfind, Option.none_or]
      exact List.find?_cons_of_pos (by simp)
    · rw [if_neg hname, List.find?_cons_of_neg (by simpa using Ne.symm hname), List.find?_nil,
        Option.or_none]
  | some old =>
    rw [entries_of_put_of_old h hfind]
    split
    · next hname =>
      rw [hname]
      exact find?_replaced_self hfind
    · next hname => exact find?_replaced_of_ne hname bs.entries

end Bindings

end Calculator
