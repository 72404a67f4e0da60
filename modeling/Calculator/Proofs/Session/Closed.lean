import Calculator.Proofs.Expr.Reach
import Calculator.Proofs.Grammar.Parse
import Calculator.Proofs.Session.Outcome
import Calculator.Proofs.SymbolTable.OrderedMap
import Calculator.Proofs.Token.Split

/-!
# Tables that are closed under calls

A text is read with the functions of the moment: a name in it is a call only if there is such a
function. So the bodies that lines store call functions that are in the table, and these stay there,
whatever line comes next. In such a table no call goes astray, however deep the calls nest, and the
one thing that can be looked up in vain is a variable.

* `callsStored_of_compile`: what is read calls functions of the table, and holds no built-in bodies.
* `IsClosed`, `isClosed_afterWrites`, `isClosed_after`: the bodies in the table call functions of
  the table.
* `Misses`, `exists_misses_of_evaluate`: what an evaluation looks up in vain.
* `run_lookup_fault`: what a line looks up in vain, after any lines.
-/

namespace Calculator

/-- The texts that a line has evaluated: that of a query, and the right side of the definition of a
variable. -/
inductive Line.Evaluates : Line → String → Prop where
  | query (text : String) : Evaluates (.query text) text
  | definition (left right name : String) (hleft : Target.ofText? left = some (.number name)) :
      Evaluates (.definition left right) right

/-- A fault that this stage finds comes of an evaluation, and not of reading or of writing. -/
def Fault.Kind.isOfEvaluation : Fault.Kind → Bool
  | lookup => true
  | arithmetic => true
  | recursion => true
  | _ => false

/-! ## The calls in a text -/

theorem mem_of_tokenise_call {functions : List String} {text : String} {tokens : List Token}
    {t : Token} (h : tokenise functions text = .ok tokens) (ht : t ∈ tokens)
    (hcall : t.kind = .call) : t.text ∈ functions := by
  obtain ⟨pieces, _, rfl⟩ := tokenise_eq_ok_iff.1 h
  obtain ⟨p, _, hp⟩ := List.mem_filterMap.1 ht
  cases p with
  | blank => cases hp
  | numeral =>
    cases hp
    cases hcall
  | name s hs =>
    cases hp
    by_cases hfunction : String.ofList s ∈ functions
    · exact hfunction
    · rw [if_neg hfunction] at hcall
      cases hcall
  | sign c kind hsign =>
    have hsigns : ∀ s ∈ Token.Kind.signs, s.2 ≠ .call := by decide
    cases hp
    exact absurd hcall (hsigns _ hsign)

namespace Phrase

variable {l : Layer}

/-- Each call in the tree of a phrase stands among its tokens. -/
theorem exists_token_of_mem_callees (p : Phrase l) {g : String} (hg : g ∈ p.tree.callees) :
    ∃ t ∈ p.tokens, t.kind = .call ∧ t.text = g := by
  induction p with
  | number | name => exact absurd hg List.not_mem_nil
  | bracketed _ _ _ _ _ ih | signed _ _ _ _ _ ih | factorial _ _ _ ih | single _ _ ih =>
    obtain ⟨t, ht, hcall⟩ := ih hg
    exact ⟨t, by simp [ht], hcall⟩
  | call function opening p closing hf _ _ ih =>
    rcases List.mem_cons.1 hg with rfl | hg
    · exact ⟨function, List.mem_cons_self, hf, rfl⟩
    · obtain ⟨t, ht, hcall⟩ := ih hg
      exact ⟨t, by simp [ht], hcall⟩
  | joined left t op right _ _ _ ihl ihr =>
    rcases List.mem_append.1 hg with hg | hg
    · obtain ⟨t', ht', hcall⟩ := ihl hg
      exact ⟨t', by simp [ht'], hcall⟩
    · obtain ⟨t', ht', hcall⟩ := ihr hg
      exact ⟨t', by simp [ht'], hcall⟩

@[simp] theorem builtins_tree (p : Phrase l) : p.tree.builtins = [] := by
  induction p with
  | number | name => rfl
  | bracketed _ _ _ _ _ ih | call _ _ _ _ _ _ _ ih | signed _ _ _ _ _ ih | factorial _ _ _ ih
  | single _ _ ih => exact ih
  | joined _ _ _ _ _ _ _ ihl ihr => simp [ihl, ihr]

end Phrase

namespace SymbolTable

variable {t t' : SymbolTable} {e : Expr} {f : Fault}

/-- The tree calls functions of the table only. -/
def CallsStored (t : SymbolTable) (e : Expr) : Prop := ∀ g ∈ e.callees, g ∈ t.functions.names

theorem callsStored_of_compile {text : String} (h : t.compile text = .ok e) :
    t.CallsStored e ∧ e.builtins = [] := by
  obtain ⟨tokens, htokens, hparse⟩ := bind_eq_ok_iff.1 h
  obtain ⟨p, rfl, rfl⟩ := Expr.exists_tokens_eq_of_parseAll hparse
  constructor
  · intro g hg
    rw [Expr.callees, Expr.callees, List.append_nil] at hg
    obtain ⟨call, hcall, hkind, rfl⟩ := p.exists_token_of_mem_callees hg
    exact mem_of_tokenise_call htokens hcall hkind
  · simp

/-! ## Closed tables -/

/-- The body of each function in the table calls functions of the table only. -/
def IsClosed (t : SymbolTable) : Prop := ∀ b ∈ t.functions.entries, t.CallsStored b.value

theorem CallsStored.mono (h : t.CallsStored e) (hnames : t.functions.names ⊆ t'.functions.names) :
    t'.CallsStored e :=
  fun g hg => hnames (h g hg)

theorem isClosed_of_start {start : SymbolTable} (hstart : start = standard ∨ start = empty) :
    start.IsClosed := by
  have hcallees : ∀ b ∈ start.functions.entries, b.value.callees = [] := by
    rcases hstart with rfl | rfl <;> decide
  intro b hb g hg
  rw [hcallees b hb] at hg
  exact absurd hg List.not_mem_nil

/-- A write keeps a table closed if what it stores calls functions of the table. -/
theorem IsClosed.write {w : Write} (h : t.IsClosed) (hwrite : t.write w = .ok t')
    (hbody : ∀ b, w.function? = some b → t.CallsStored b.value) : t'.IsClosed := by
  cases written_of_write hwrite with
  | var => exact h
  | function b functions _ hfunction hput =>
    have hnames : t.functions.names ⊆ functions.names := fun _ => Bindings.mem_names_of_put hput
    intro b' hb'
    rcases (Bindings.mem_entries_put_iff hput).1 hb' with rfl | ⟨hold, _⟩
    · exact (hbody b' hfunction).mono hnames
    · exact (h b' hold).mono hnames

theorem isClosed_afterWrites {ws : List Write} (h : t.IsClosed)
    (hws : ∀ name body, .setFunction name body ∉ ws) : (t.afterWrites ws).IsClosed := by
  refine afterWrites_induction ?_ h
  intro w hw t t' ht hwrite
  refine ht.write hwrite ?_
  intro b hb
  cases w with
  | setVariable | defineConstant => cases hb
  | setFunction name body => exact absurd hw (hws name body)
  | defineBuiltin name function =>
    cases hb
    exact fun g hg => absurd hg List.not_mem_nil

/-- No line opens a closed table, not even one that fails or that stores another body for a function
that is called elsewhere. -/
theorem isClosed_after (lines : List String) (h : t.IsClosed) : (t.after lines).IsClosed := by
  refine after_induction lines ?_ h
  intro t t' w ht hw hwrite
  refine ht.write hwrite ?_
  intro b hb
  cases hw with
  | number => cases hb
  | function name text body _ hcompile =>
    cases hb
    exact (callsStored_of_compile hcompile).1

/-! ## What is looked up in vain -/

/-- The tree reads the variable, and the table does not have it. -/
structure Misses (t : SymbolTable) (frame? : Option Frame) (e : Expr) (name : String) : Prop where
  reads : t.Reads frame? e name
  absent : name ∉ t.vars.names

theorem Reads.ne_argumentName {frame : Frame} {name : String} (h : t.Reads (some frame) e name) :
    name ≠ argumentName := by
  cases h with
  | tree _ hfree => exact hfree rfl
  | body _ _ _ hfree => exact hfree

theorem lookup_eq_error_iff {argument? : Option Float} {name : String} :
    t.lookup argument? name = .error f ↔
      f = .unknownVariable name ∧ (argument?.isSome → name ≠ argumentName) ∧
        name ∉ t.vars.names := by
  have hmissing : (t.getVariable name).map Binding.value = .error f ↔
      f = .unknownVariable name ∧ name ∉ t.vars.names := by
    unfold getVariable
    cases hfind : t.vars.find? name with
    | none =>
      have habsent : name ∉ t.vars.names := Bindings.find?_eq_none_iff.1 hfind
      simp [habsent, eq_comm]
    | some b =>
      have hmem : name ∈ t.vars.names := by
        obtain ⟨hb, rfl⟩ := Bindings.find?_eq_some_iff.1 hfind
        exact List.mem_map_of_mem hb
      simp [hmem]
  unfold lookup
  cases argument? with
  | none => simp [hmissing]
  | some x =>
    by_cases hname : name = argumentName
    · simp [hname]
    · simp [hname, hmissing]

/-- The bodies are not parts of the tree, so this is by induction on the calls that may still be
opened. Each call finds its function, because all that the tree reaches is in the table. -/
theorem exists_misses_of_call {frame? : Option Frame} {g : String} {n : Nat} {x : Float}
    (hclosed : t.IsClosed) (hcalls : t.CallsStored e) (hg : t.Reaches e g)
    (h : t.call n g x = .error f) (hf : f.kind = .lookup) :
    ∃ name, f = .unknownVariable name ∧ t.Misses frame? e name := by
  induction n generalizing g x with
  | zero =>
    cases h
    cases hf
  | succ n ih =>
    have hstored : g ∈ t.functions.names := by
      refine hg.mem_of_closed hcalls ?_
      intro k _ body hbody
      exact hclosed body (Bindings.find?_eq_some_iff.1 hbody).1
    cases hfind : t.functions.find? g with
    | none => exact absurd hstored (Bindings.find?_eq_none_iff.1 hfind)
    | some body =>
      rw [call_succ hfind] at h
      cases Expr.origin_of_evalWith h with
      | name name hname hlookup =>
        obtain ⟨rfl, hfree, habsent⟩ := lookup_eq_error_iff.1 hlookup
        exact ⟨name, rfl, .body hg hfind hname (hfree rfl), habsent⟩
      | call k y hk hcall => exact ih (hg.step hfind hk) hcall
      | body _ _ hnone _ => cases hnone
      | operation hkind =>
        rw [hkind] at hf
        cases hf

/-- In a closed table, a tree that calls functions of the table fails to find nothing but a
variable. The body of a built-in function needs a call around it for that. -/
theorem exists_misses_of_evaluate {frame? : Option Frame} (hclosed : t.IsClosed)
    (hcalls : t.CallsStored e) (hbuiltins : frame? = none → e.builtins = [])
    (h : t.evaluate e frame? = .error f) (hf : f.kind = .lookup) :
    ∃ name, f = .unknownVariable name ∧ t.Misses frame? e name := by
  cases Expr.origin_of_evalWith h with
  | name name hname hlookup =>
    obtain ⟨rfl, hfree, habsent⟩ := lookup_eq_error_iff.1 hlookup
    rw [Option.isSome_map] at hfree
    exact ⟨name, rfl, .tree hname hfree, habsent⟩
  | call g x hg hcall => exact exists_misses_of_call hclosed hcalls (reaches_of_mem hg) hcall hf
  | body name hname hnone _ =>
    rw [hbuiltins (Option.map_eq_none_iff.1 hnone)] at hname
    exact absurd hname List.not_mem_nil
  | operation hkind =>
    rw [hkind] at hf
    cases hf

/-! ## The faults of a line -/

theorem kind_of_compile_error {text : String} (h : t.compile text = .error f) :
    ¬f.kind.isOfEvaluation := by
  rcases bind_eq_error_iff.1 h with htokens | ⟨tokens, _, hparse⟩
  · obtain ⟨_, _, _, _, rfl⟩ := tokenise_eq_error_iff.1 htokens
    exact Bool.false_ne_true
  · rw [Expr.kind_of_parseAll_error hparse]
    exact Bool.false_ne_true

theorem kind_of_write_error {w : Write} (h : t.write w = .error f) : ¬f.kind.isOfEvaluation := by
  rw [(write_eq_error_iff.1 h).1]
  exact Bool.false_ne_true

theorem kind_of_record_error {result : Float} (hresult : lastResult ∈ t.vars.names)
    (h : (t.record result).1 = .error f) : ¬f.kind.isOfEvaluation := by
  obtain ⟨value, isFinal, hlast⟩ := exists_find?_of_mem_names hresult
  cases hbefore : t.write (.setVariable resultBeforeLast value) with
  | error g =>
    rw [record_of_error hlast hbefore] at h
    cases h
    exact kind_of_write_error hbefore
  | ok t₁ =>
    cases hwrite : t₁.write (.setVariable lastResult result) with
    | error g =>
      rw [record_of_half hlast hbefore hwrite] at h
      cases h
      exact kind_of_write_error hwrite
    | ok t₂ =>
      rw [record_of_ok hlast hbefore hwrite] at h
      cases h

theorem exists_evaluate_of_valueOf {text : String} (h : t.valueOf text = .error f)
    (hf : f.kind.isOfEvaluation) : ∃ e, t.compile text = .ok e ∧ t.evaluate e none = .error f := by
  rcases bind_eq_error_iff.1 h with hcompile | hvalue
  · exact absurd hf (kind_of_compile_error hcompile)
  · exact hvalue

theorem exists_valueOf_of_define {left right : String} (h : t.define left right = .error f)
    (hf : f.kind.isOfEvaluation) :
    ∃ name, Target.ofText? left = some (.number name) ∧ t.valueOf right = .error f := by
  cases htarget : Target.ofText? left with
  | none =>
    rw [define_of_none htarget] at h
    cases h
    exact absurd hf Bool.false_ne_true
  | some target =>
    cases target with
    | function name =>
      rw [define_of_function htarget] at h
      rcases bind_eq_error_iff.1 h with hcompile | ⟨_, _, hwrite⟩
      · exact absurd hf (kind_of_compile_error hcompile)
      · exact absurd hf (kind_of_write_error hwrite)
    | number name =>
      rw [define_of_number htarget] at h
      rcases bind_eq_error_iff.1 h with hvalue | ⟨_, _, hwrite⟩
      · exact ⟨name, rfl, hvalue⟩
      · exact absurd hf (kind_of_write_error hwrite)

/-- What a line looks up, it looks up to evaluate its text; and so it is with all that only an
evaluation can find. -/
theorem exists_evaluate_of_run {line : String} {kind : Fault.Kind}
    (hresult : lastResult ∈ t.vars.names) (h : (t.run line).1 = .error f) (hf : f.kind = kind)
    (hkind : kind.isOfEvaluation := by decide) :
    ∃ text e, (Line.ofText line).Evaluates text ∧ t.compile text = .ok e ∧
      t.evaluate e none = .error f := by
  replace hf : f.kind.isOfEvaluation := hf ▸ hkind
  cases hline : Line.ofText line with
  | query text =>
    cases hvalue : t.valueOf text with
    | ok result =>
      rw [run_of_query_ok hline hvalue] at h
      exact absurd hf (kind_of_record_error hresult h)
    | error g =>
      rw [run_of_query_error hline hvalue] at h
      cases h
      obtain ⟨e, hcompile, he⟩ := exists_evaluate_of_valueOf hvalue hf
      exact ⟨text, e, .query text, hcompile, he⟩
  | definition left right =>
    cases hdefine : t.define left right with
    | ok t' =>
      rw [run_of_definition_ok hline hdefine] at h
      cases h
    | error g =>
      rw [run_of_definition_error hline hdefine] at h
      cases h
      obtain ⟨name, htarget, hvalue⟩ := exists_valueOf_of_define hdefine hf
      obtain ⟨e, hcompile, he⟩ := exists_evaluate_of_valueOf hvalue hf
      exact ⟨right, e, .definition left right name htarget, hcompile, he⟩

/-- A table that is closed stays so in a session, and the one thing that can be looked up in vain is
a variable, which the table does not have at that moment. A line that fails for this reason has a
text to evaluate that reads the variable, itself or through the functions that it reaches; and in
the body of a function the variable is never the argument `x`. Closed are the tables to begin with,
also after variables, constants and built-in functions have been written to them. -/
theorem run_lookup_fault (start : SymbolTable) (hresult : lastResult ∈ start.vars.names)
    (hclosed : start.IsClosed) (lines : List String) :
    let t := start.after lines
    t.IsClosed ∧
    (∀ line f, (t.run line).1 = .error f → f.kind = .lookup →
      ∃ name, f = .unknownVariable name ∧ ∃ text e, (Line.ofText line).Evaluates text ∧
        t.compile text = .ok e ∧ t.evaluate e none = .error f ∧ t.Misses none e name) ∧
    (∀ b ∈ t.functions.entries, ∀ frame f, t.evaluate b.value (some frame) = .error f →
      f.kind = .lookup →
      ∃ name, f = .unknownVariable name ∧ name ≠ argumentName ∧
        t.Misses (some frame) b.value name) ∧
    (∀ first, first = standard ∨ first = empty → ∀ writes,
      lastResult ∈ (first.afterWrites writes).vars.names ∧
      ((∀ name body, .setFunction name body ∉ writes) →
        (first.afterWrites writes).IsClosed)) ∧
    ∀ name, (Fault.unknownVariable name).message = name ++ " is not a stored variable" ∧
      (Fault.unknownFunction name).message = name ++ " is not a stored function" ∧
      (Fault.unboundArgument name).message = "x is not bound outside a call to " ++ name := by
  intro t
  have hresult' : lastResult ∈ t.vars.names := mem_names_after lines hresult
  have hclosed' : t.IsClosed := isClosed_after lines hclosed
  refine ⟨hclosed', ?_, ?_, ?_, fun name => ⟨rfl, rfl, rfl⟩⟩
  · intro line f h hf
    obtain ⟨text, e, htext, hcompile, he⟩ := exists_evaluate_of_run hresult' h hf
    obtain ⟨hcalls, hbuiltins⟩ := callsStored_of_compile hcompile
    obtain ⟨name, hname, hmisses⟩ :=
      exists_misses_of_evaluate hclosed' hcalls (fun _ => hbuiltins) he hf
    exact ⟨name, hname, text, e, htext, hcompile, he, hmisses⟩
  · intro b hb frame f h hf
    have hframe : some frame = none → b.value.builtins = [] := fun hnone => by cases hnone
    obtain ⟨name, hname, hmisses⟩ :=
      exists_misses_of_evaluate hclosed' (hclosed' b hb) hframe h hf
    exact ⟨name, hname, hmisses.reads.ne_argumentName, hmisses⟩
  · intro first hfirst writes
    obtain ⟨hlast, _⟩ := isOpen_of_start hfirst
    exact ⟨mem_names_afterWrites writes hlast.mem_names,
      isClosed_afterWrites (isClosed_of_start hfirst)⟩

/-- The function `f` gets another body, which reads `y`, after `g` has been stored with a call to
it. The last line reads `y` through both. -/
theorem run_lookup_fault_redefined :
    let start := empty.afterWrites [.defineBuiltin "sin" .sin, .defineConstant "c" 2]
    let t := start.after ["f(x) = c * x", "g(x) = sin(x) + f(x + 1)", "1 / 0", "f(x) = y + x"]
    (lastResult ∈ start.vars.names ∧ start.IsClosed) ∧
      (t.run "z = g(2) + x").1 = .error (.unknownVariable "y") ∧
      ∃ text e, (Line.ofText "z = g(2) + x").Evaluates text ∧ t.compile text = .ok e ∧
        t.evaluate e none = .error (.unknownVariable "y") ∧ t.Misses none e "y" := by
  intro start t
  have hresult : lastResult ∈ start.vars.names := by decide +kernel
  have hclosed : start.IsClosed := by
    refine isClosed_afterWrites (isClosed_of_start (.inr rfl)) ?_
    intro name body hmem
    simp at hmem
  have herror : (t.run "z = g(2) + x").1 = .error (.unknownVariable "y") := by decide +kernel
  obtain ⟨_, hlines, _⟩ := run_lookup_fault start hresult hclosed _
  obtain ⟨name, hname, hmisses⟩ := hlines _ _ herror rfl
  cases hname
  exact ⟨⟨hresult, hclosed⟩, herror, hmisses⟩

end SymbolTable

end Calculator
