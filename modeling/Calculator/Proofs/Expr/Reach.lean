import Calculator.Proofs.Expr.CallChain
import Calculator.Proofs.SymbolTable.Writes
import Mathlib.Control.Monad.Basic

/-!
# What an evaluation reads

The evaluation of a tree looks up the variables of the tree and of the bodies of the functions that
chains of calls lead to, and it looks up those functions. In a body `x` is the argument and not
looked up, and neither is it in the tree if that is evaluated in a call. Nothing else in the table
makes a difference: no other entries, no order of the entries, and none of the flags of those that
are looked up.

* `Reaches.step`, `Reaches.mem_of_closed`: the functions that a tree reaches are the least set that
  holds those it calls and, with each function, those that its body calls.
* `Reads`: the variables that are looked up.
* `AgreeOn`, `evaluate_eq_of_agreeOn`: two tables that hold the same where the tree reads them.
-/

namespace Calculator.SymbolTable

variable {s t : SymbolTable} {frame? : Option Frame} {e : Expr} {g : String} {body : Binding Expr}

/-! ## The functions that a tree reaches -/

theorem reaches_of_mem (hg : g ∈ e.callees) : t.Reaches e g := ⟨[], .last hg⟩

theorem Reaches.step {k : String} (h : t.Reaches e g) (hbody : t.functions.find? g = some body)
    (hk : k ∈ body.value.callees) : t.Reaches e k := by
  obtain ⟨names, hnames⟩ := h
  refine ⟨names ++ [g], ?_⟩
  rw [List.append_assoc, List.singleton_append]
  exact hnames.append hbody (.last hk)

/-- Functions that have all the calls of the tree and of their own bodies among them are all that
the tree reaches. -/
theorem Reaches.mem_of_closed {names : List String} (h : t.Reaches e g)
    (hcallees : ∀ k ∈ e.callees, k ∈ names)
    (hclosed : ∀ f ∈ names, ∀ body ∈ t.functions.find? f, ∀ k ∈ body.value.callees, k ∈ names) :
    g ∈ names := by
  obtain ⟨chain, hchain⟩ := h
  induction chain generalizing e with
  | nil =>
    cases hchain with
    | last hg => exact hcallees g hg
    | step _ _ hrest => exact absurd hrest.length_pos (Nat.lt_irrefl 0)
  | cons first chain ih =>
    generalize hrest : chain ++ [g] = rest at ih
    rw [List.cons_append, hrest] at hchain
    cases hchain with
    | last => exact absurd hrest (by simp)
    | step hfirst hbody h => exact ih (hclosed first (hcallees first hfirst) _ hbody) h

/-! ## The variables that a tree reads -/

/-- The variables that are looked up when the tree is evaluated: its own, and those in the bodies
of the functions that it reaches, except where `x` is the argument of a call. -/
inductive Reads (t : SymbolTable) (frame? : Option Frame) (e : Expr) : String → Prop where
  | tree {name : String} (hname : name ∈ e.vars)
      (hfree : frame?.isSome → name ≠ argumentName) : Reads t frame? e name
  | body {g : String} {body : Binding Expr} {name : String} (hg : t.Reaches e g)
      (hbody : t.functions.find? g = some body) (hname : name ∈ body.value.vars)
      (hfree : name ≠ argumentName) : Reads t frame? e name

theorem getVariable_map (t : SymbolTable) (name : String) :
    (t.getVariable name).map Binding.value =
      ((t.vars.find? name).map Binding.value).elim (.error (.unknownVariable name)) .ok := by
  unfold getVariable
  cases t.vars.find? name <;> rfl

theorem lookup_congr {argument? : Option Float} {name : String}
    (h : (argument?.isSome → name ≠ argumentName) →
      (s.vars.find? name).map Binding.value = (t.vars.find? name).map Binding.value) :
    s.lookup argument? name = t.lookup argument? name := by
  unfold lookup
  cases hbound : if name = argumentName then argument? else none with
  | some x => rfl
  | none =>
    have hfree : argument?.isSome → name ≠ argumentName := by
      rintro hsome rfl
      rw [if_pos rfl] at hbound
      rw [hbound] at hsome
      cases hsome
    simp only [getVariable_map, h hfree]

/-! ## Tables that agree -/

/-- The two tables hold the same value, or neither holds one, for each variable that the tree reads
in the first of them; and likewise the same body for each function that it reaches. -/
structure AgreeOn (s t : SymbolTable) (frame? : Option Frame) (e : Expr) : Prop where
  vars : ∀ name, s.Reads frame? e name →
    (s.vars.find? name).map Binding.value = (t.vars.find? name).map Binding.value
  functions : ∀ g, s.Reaches e g →
    (s.functions.find? g).map Binding.value = (t.functions.find? g).map Binding.value

/-- The bodies are not parts of the tree, so this is by induction on the calls that may still be
opened. The tables agree on each body because they agree on all that the tree reaches. -/
theorem AgreeOn.call_eq (h : s.AgreeOn t frame? e) (hg : s.Reaches e g) (n : Nat) (x : Float) :
    s.call n g x = t.call n g x := by
  induction n generalizing g x with
  | zero => rfl
  | succ n ih =>
    have hfunction := h.functions g hg
    cases hs : s.functions.find? g with
    | none =>
      rw [hs, Option.map_none, eq_comm, Option.map_eq_none_iff] at hfunction
      rw [call_succ_of_none hs, call_succ_of_none hfunction]
    | some body =>
      rw [hs, Option.map_some, eq_comm, Option.map_eq_some_iff] at hfunction
      obtain ⟨body', ht, hvalue⟩ := hfunction
      rw [call_succ hs, call_succ ht, hvalue]
      apply Expr.evalWith_congr
      · intro name hname
        apply lookup_congr
        intro hfree
        exact h.vars name (.body hg hs hname (hfree rfl))
      · intro k hk x
        exact ih (hg.step hs hk) x

/-- With any number of calls that may still be opened, the tree comes out alike in both tables. -/
theorem AgreeOn.evalWith_eq (h : s.AgreeOn t frame? e) (n : Nat) :
    e.evalWith s (frame?.map Frame.argument) (s.call n) =
      e.evalWith t (frame?.map Frame.argument) (t.call n) := by
  apply Expr.evalWith_congr
  · intro name hname
    apply lookup_congr
    intro hfree
    rw [Option.isSome_map] at hfree
    exact h.vars name (.tree hname hfree)
  · intro g hg x
    exact h.call_eq (reaches_of_mem hg) n x

/-- An evaluation depends only on what it can reach. Two tables that hold the same values under the
names that the tree reads, and the same bodies under the names of the functions that it reaches,
give the tree the same value or the same fault. -/
theorem evaluate_eq_of_agreeOn (s t : SymbolTable) (e : Expr) (frame? : Option Frame)
    (h : s.AgreeOn t frame? e) : s.evaluate e frame? = t.evaluate e frame? :=
  h.evalWith_eq (callsLeft frame?)

/-- In the first table `f` came before `g`, and its body has been replaced since. In the second `y`
is final and a function as well, and there are neither constants nor built-in functions. -/
theorem evaluate_eq_of_agreeOn_replaced :
    let scaled : Expr := .binary .mul (.var "x") (.var "y")
    let next : Expr := .call "g" (.binary .add (.var "x") (.number 1))
    let s := standard.afterWrites
      [.setFunction "f" (.var "z"), .setFunction "g" scaled, .setFunction "f" next,
        .setVariable "y" 2]
    let t := empty.afterWrites
      [.defineConstant "y" 2, .setFunction "g" scaled, .setFunction "f" next,
        .setFunction "y" (.number 7)]
    s.AgreeOn t (some ⟨5, 3⟩) (.call "f" (.var "x")) ∧
      s.evaluate (.call "f" (.var "x")) (some ⟨5, 3⟩) =
        t.evaluate (.call "f" (.var "x")) (some ⟨5, 3⟩) ∧
      s.evaluate (.call "f" (.var "x")) (some ⟨5, 3⟩) = .ok 12 := by
  intro scaled next s t
  have hreaches : ∀ g, s.Reaches (.call "f" (.var "x")) g → g ∈ ["f", "g"] := by
    intro g hg
    exact hg.mem_of_closed (by decide) (by decide +kernel)
  have hvars : ∀ g ∈ ["f", "g"], ∀ body ∈ s.functions.find? g, ∀ name ∈ body.value.vars,
      name ≠ argumentName →
        (s.vars.find? name).map Binding.value = (t.vars.find? name).map Binding.value := by
    decide +kernel
  have hfunctions : ∀ g ∈ ["f", "g"],
      (s.functions.find? g).map Binding.value = (t.functions.find? g).map Binding.value := by
    rw [List.forall_mem_cons, List.forall_mem_singleton]
    exact ⟨rfl, rfl⟩
  have hagree : s.AgreeOn t (some ⟨5, 3⟩) (.call "f" (.var "x")) := by
    refine ⟨?_, fun g hg => hfunctions g (hreaches g hg)⟩
    intro name hreads
    cases hreads with
    | tree hname hfree => exact absurd (List.mem_singleton.1 hname) (hfree rfl)
    | body hg hbody hname hfree => exact hvars _ (hreaches _ hg) _ hbody name hname hfree
  exact ⟨hagree, evaluate_eq_of_agreeOn s t _ _ hagree, by decide +kernel⟩

end Calculator.SymbolTable
