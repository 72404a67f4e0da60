import Calculator.Proofs.Expr.Reach
import Calculator.Proofs.Session.Closed
import Calculator.Proofs.Session.ReadBack

/-!
# What a text mentions

A text mentions the names among its tokens, and those in the bodies of the functions that it calls,
directly or through other bodies. Whether such a name is read as a variable or as a call, and what
it stands for, is all that a text takes from the table. So it stands for the same expression, and
has the same value or fault, in two tables that differ under other names only. A query writes the
last two results and nothing else; if it does not mention them, it can be put again after any
further queries, and has the same answer.

* `Phrase.vars_tree`: the variables of a tree are the identifiers among its tokens.
* `Mentions`: the names in a text and in the bodies that it reaches.
* `AgreeOff`: two tables that hold the same, except under some names.
* `AgreeOff.compile_eq`, `AgreeOff.valueOf_eq`: texts that mention none of these names.
* `run_query_again`: a query that is put again.
-/

namespace Calculator

open Text

/-! ## The names among the tokens of a text -/

/-- A token that is a name, be it that of a variable or that of a function. -/
def Token.IsIdentifier (t : Token) : Prop := t.kind = .ident ∨ t.kind = .call

theorem Piece.isIdentifier_of_token? {functions : List String} {s : List Char} {h : IsName s}
    {t : Token} (ht : (Piece.name s h).token? functions = some t) :
    t.IsIdentifier ∧ t.text = String.ofList s := by
  cases ht
  unfold Token.IsIdentifier
  dsimp only
  split_ifs
  · exact ⟨.inr rfl, rfl⟩
  · exact ⟨.inl rfl, rfl⟩

/-- The names of functions make a difference to a text only if they are among its tokens. -/
theorem tokenise_congr {functions functions' : List String} {text : String}
    (h : ∀ tokens, tokenise functions text = .ok tokens → ∀ t ∈ tokens, t.IsIdentifier →
      (t.text ∈ functions ↔ t.text ∈ functions')) :
    tokenise functions text = tokenise functions' text := by
  rcases exists_isSplit_or_munches text.toList with ⟨pieces, hsplit⟩ | ⟨pieces, c, rest, hm, hc⟩
  · have htokens := tokenise_of_isSplit functions hsplit
    rw [htokens, tokenise_of_isSplit functions' hsplit, Except.ok.injEq]
    apply List.filterMap_congr
    intro p hp
    cases p with
    | name s hs =>
      obtain ⟨t, ht⟩ : ∃ t, (Piece.name s hs).token? functions = some t := ⟨_, rfl⟩
      obtain ⟨hidentifier, htext⟩ := Piece.isIdentifier_of_token? ht
      have hname := h _ htokens t (List.mem_filterMap.2 ⟨_, hp, ht⟩) hidentifier
      rw [htext] at hname
      simp only [Piece.token?, hname]
    | blank | numeral | sign => rfl
  · rw [tokenise_of_munches functions hm hc, tokenise_of_munches functions' hm hc]

namespace Phrase

variable {l : Layer}

theorem ne_ident_of_operator? {k : Token.Kind} {op : Operator} (h : k.operator? = some op) :
    k ≠ .ident := by
  rintro rfl
  cases h

/-- The variables of the tree of a phrase are the identifiers among its tokens, in order. -/
theorem vars_tree (p : Phrase l) :
    p.tree.vars = (p.tokens.filter fun t => t.kind = .ident).map Token.text := by
  induction p with
  | number t ht | name t ht => simp [ht]
  | bracketed opening p closing ho hc ih => simp [ih, ho, hc]
  | call function opening p closing hf ho hc ih => simp [ih, hf, ho, hc]
  | signed sign op p hs hop ih => simp [ih, ne_ident_of_operator? hs]
  | factorial p bang hb ih => simp [ih, hb]
  | joined left t op right h ht hop ihl ihr => simp [ihl, ihr, ne_ident_of_operator? ht]
  | single h p ih => exact ih

end Phrase

namespace SymbolTable

variable {s t t' : SymbolTable} {e : Expr} {text name : String} {names : List String}

/-! ## The names that a text mentions -/

/-- The name is among the tokens of the text, or among the variables and calls in the body of a
function that the text calls, directly or through other bodies. -/
inductive Mentions (t : SymbolTable) (text name : String) : Prop where
  | token {tokens : List Token} {token : Token}
      (htokens : tokenise t.functions.names text = .ok tokens) (htoken : token ∈ tokens)
      (hidentifier : token.IsIdentifier) (hname : token.text = name) : Mentions t text name
  | body {e : Expr} {g : String} {body : Binding Expr} (hcompile : t.compile text = .ok e)
      (hg : t.Reaches e g) (hbody : t.functions.find? g = some body)
      (hname : name ∈ body.value.vars ∨ name ∈ body.value.callees) : Mentions t text name

theorem mentions_of_mem_vars (hcompile : t.compile text = .ok e) (hname : name ∈ e.vars) :
    t.Mentions text name := by
  obtain ⟨tokens, htokens, hparse⟩ := bind_eq_ok_iff.1 hcompile
  obtain ⟨p, rfl, rfl⟩ := Expr.exists_tokens_eq_of_parseAll hparse
  obtain ⟨token, ⟨htoken, hident⟩, rfl⟩ : ∃ token,
      (token ∈ p.tokens ∧ token.kind = .ident) ∧ token.text = name := by
    simpa [p.vars_tree] using hname
  exact .token htokens htoken (.inl hident) rfl

theorem exists_token_of_compile (hcompile : t.compile text = .ok e) (hname : name ∈ e.callees) :
    ∃ tokens, tokenise t.functions.names text = .ok tokens ∧
      ∃ token ∈ tokens, token.kind = .call ∧ token.text = name := by
  obtain ⟨tokens, htokens, hparse⟩ := bind_eq_ok_iff.1 hcompile
  obtain ⟨p, rfl, rfl⟩ := Expr.exists_tokens_eq_of_parseAll hparse
  rw [Expr.callees, Expr.callees, List.append_nil] at hname
  exact ⟨_, htokens, p.exists_token_of_mem_callees hname⟩

theorem mentions_of_mem_callees (hcompile : t.compile text = .ok e) (hname : name ∈ e.callees) :
    t.Mentions text name := by
  obtain ⟨tokens, htokens, token, htoken, hkind, rfl⟩ := exists_token_of_compile hcompile hname
  exact .token htokens htoken (.inr hkind) rfl

theorem mentions_of_reads (hcompile : t.compile text = .ok e) (h : t.Reads none e name) :
    t.Mentions text name := by
  cases h with
  | tree hname _ => exact mentions_of_mem_vars hcompile hname
  | body hg hbody hname _ => exact .body hcompile hg hbody (.inl hname)

/-- A function that is reached is called by the tree or by a body that is reached. -/
theorem Reaches.mem_callees_or {g : String} (h : t.Reaches e g) :
    g ∈ e.callees ∨ ∃ k body, t.Reaches e k ∧ t.functions.find? k = some body ∧
      g ∈ body.value.callees := by
  obtain ⟨chain, hchain⟩ := h
  induction chain generalizing e with
  | nil =>
    cases hchain with
    | last hg => exact .inl hg
    | step _ _ hrest => exact absurd hrest.length_pos (Nat.lt_irrefl 0)
  | cons first chain ih =>
    generalize hrest : chain ++ [g] = rest at ih
    rw [List.cons_append, hrest] at hchain
    cases hchain with
    | last => exact absurd hrest (by simp)
    | step hfirst hbody h =>
      right
      rcases ih h with hg | ⟨k, body, ⟨names, hk⟩, hbody', hg⟩
      · exact ⟨first, _, reaches_of_mem hfirst, hbody, hg⟩
      · exact ⟨k, body, ⟨first :: names, .step hfirst hbody hk⟩, hbody', hg⟩

theorem mentions_of_reaches (hcompile : t.compile text = .ok e) (h : t.Reaches e name) :
    t.Mentions text name := by
  rcases h.mem_callees_or with hname | ⟨k, body, hk, hbody, hname⟩
  · exact mentions_of_mem_callees hcompile hname
  · exact .body hcompile hk hbody (.inr hname)

/-- A name is not mentioned if it is neither among the tokens of the text nor in a body among some
functions that hold, with the calls in the text, all that is reached. -/
theorem not_mentions_of_closed (tokens : List Token) (functions : List String)
    (htokens : tokenise t.functions.names text = .ok tokens)
    (hnot : ∀ token ∈ tokens, token.text ≠ name)
    (hcalls : ∀ token ∈ tokens, token.kind = .call → token.text ∈ functions)
    (hclosed : ∀ g ∈ functions, ∀ body ∈ t.functions.find? g, ∀ k ∈ body.value.callees,
      k ∈ functions)
    (hbodies : ∀ g ∈ functions, ∀ body ∈ t.functions.find? g,
      name ∉ body.value.vars ∧ name ∉ body.value.callees) : ¬t.Mentions text name := by
  intro h
  cases h with
  | token htokens' htoken _ hname =>
    rw [htokens, Except.ok.injEq] at htokens'
    exact hnot _ (htokens' ▸ htoken) hname
  | @body e g body hcompile hg hbody hname =>
    have hcallees : ∀ k ∈ e.callees, k ∈ functions := by
      intro k hk
      obtain ⟨tokens', htokens', token, htoken, hkind, rfl⟩ := exists_token_of_compile hcompile hk
      rw [htokens, Except.ok.injEq] at htokens'
      exact hcalls _ (htokens' ▸ htoken) hkind
    obtain ⟨hvar, hcallee⟩ := hbodies _ (hg.mem_of_closed hcallees hclosed) _ hbody
    exact hname.elim hvar hcallee

/-! ## Tables that differ under some names -/

/-- The two tables hold the same variable, or neither holds one, under each name that is not listed;
and likewise for the functions. -/
structure AgreeOff (s t : SymbolTable) (names : List String) : Prop where
  vars : ∀ name ∉ names, s.vars.find? name = t.vars.find? name
  functions : ∀ name ∉ names, s.functions.find? name = t.functions.find? name

theorem AgreeOff.refl (t : SymbolTable) (names : List String) : t.AgreeOff t names :=
  ⟨fun _ _ => rfl, fun _ _ => rfl⟩

theorem AgreeOff.trans (h : s.AgreeOff t names) (h' : t.AgreeOff t' names) :
    s.AgreeOff t' names :=
  ⟨fun name hname => (h.vars name hname).trans (h'.vars name hname),
    fun name hname => (h.functions name hname).trans (h'.functions name hname)⟩

theorem AgreeOff.mem_names_iff (h : s.AgreeOff t names) (hname : name ∉ names) :
    name ∈ s.functions.names ↔ name ∈ t.functions.names := by
  rw [← Decidable.not_iff_not, ← Bindings.find?_eq_none_iff, ← Bindings.find?_eq_none_iff,
    h.functions name hname]

/-- A text is read alike in two tables if it mentions no name under which they differ. -/
theorem AgreeOff.compile_eq (h : s.AgreeOff t names)
    (htext : ∀ name ∈ names, ¬s.Mentions text name) : s.compile text = t.compile text := by
  have htokens : tokenise s.functions.names text = tokenise t.functions.names text := by
    apply tokenise_congr
    intro tokens htokens token htoken hidentifier
    apply h.mem_names_iff
    exact fun hmem => htext _ hmem (.token htokens htoken hidentifier rfl)
  unfold compile
  rw [htokens]

/-- A tree that was read from such a text finds the same in both tables. -/
theorem AgreeOff.agreeOn (h : s.AgreeOff t names)
    (htext : ∀ name ∈ names, ¬s.Mentions text name) (hcompile : s.compile text = .ok e) :
    s.AgreeOn t none e := by
  constructor
  · intro name hreads
    rw [h.vars name fun hmem => htext name hmem (mentions_of_reads hcompile hreads)]
  · intro g hg
    rw [h.functions g fun hmem => htext g hmem (mentions_of_reaches hcompile hg)]

/-- A text has the same value or fault in two tables if it mentions no name under which they
differ. -/
theorem AgreeOff.valueOf_eq (h : s.AgreeOff t names)
    (htext : ∀ name ∈ names, ¬s.Mentions text name) : s.valueOf text = t.valueOf text := by
  unfold valueOf
  rw [← h.compile_eq htext]
  cases hcompile : s.compile text with
  | error f => simp
  | ok e =>
    simp only [ok_bind, evaluate]
    exact (h.agreeOn htext hcompile).evalWith_eq _

/-! ## What a line leaves alone -/

theorem name_of_var? {w : Write} {b : Binding Float} (h : w.var? = some b) : b.name = w.name := by
  cases w <;> cases h <;> rfl

theorem name_of_function? {w : Write} {b : Binding Expr} (h : w.function? = some b) :
    b.name = w.name := by
  cases w <;> cases h <;> rfl

theorem agreeOff_of_write {w : Write} (h : t.write w = .ok t') (hw : w.name ∈ names) :
    t.AgreeOff t' names := by
  cases written_of_write h with
  | var b vars hvar _ hput =>
    refine ⟨fun name hname => ?_, fun _ _ => rfl⟩
    have hne : name ≠ b.name := fun heq => hname (heq ▸ name_of_var? hvar ▸ hw)
    show t.vars.find? name = vars.find? name
    rw [Bindings.find?_of_put hput, if_neg hne]
  | function b functions _ hfunction hput =>
    refine ⟨fun _ _ => rfl, fun name hname => ?_⟩
    have hne : name ≠ b.name := fun heq => hname (heq ▸ name_of_function? hfunction ▸ hw)
    show t.functions.find? name = functions.find? name
    rw [Bindings.find?_of_put hput, if_neg hne]

/-- A query changes nothing but the last two results. -/
theorem agreeOff_run_query {line : String} (hline : '=' ∉ line.toList) :
    t.AgreeOff (t.run line).2 [lastResult, resultBeforeLast] := by
  have hquery := Line.ofText_of_not_mem hline
  have hlast : lastResult ∈ [lastResult, resultBeforeLast] := List.mem_cons_self
  have hbefore : resultBeforeLast ∈ [lastResult, resultBeforeLast] :=
    List.mem_cons_of_mem _ List.mem_cons_self
  have houtcome := run_outcome t line
  generalize (t.run line).1 = answer, (t.run line).2 = t₂ at houtcome ⊢
  cases houtcome with
  | refused f => exact .refl t _
  | halfRecorded _ _ _ _ _ _ _ _ hwrite => exact agreeOff_of_write hwrite hbefore
  | recorded _ _ _ t₁ _ _ _ _ hwrite hresult =>
    exact (agreeOff_of_write hwrite hbefore).trans (agreeOff_of_write hresult hlast)
  | variableDefined _ _ _ _ _ hdefinition =>
    rw [hquery] at hdefinition
    cases hdefinition
  | functionDefined _ _ _ _ _ hdefinition =>
    rw [hquery] at hdefinition
    cases hdefinition

theorem agreeOff_after_queries {lines : List String} (h : ∀ line ∈ lines, '=' ∉ line.toList) :
    t.AgreeOff (t.after lines) [lastResult, resultBeforeLast] := by
  induction lines generalizing t with
  | nil => exact .refl t _
  | cons line lines ih =>
    rw [List.forall_mem_cons] at h
    exact (agreeOff_run_query h.1).trans (ih h.2)

/-! ## A query that is put again -/

/-- A query that mentions neither of the last two results has the same answer, value or fault, when
it is put again, after itself and any further queries, whatever these are and whatever came of
them. -/
theorem run_query_again (lines : List String) (query text : String)
    (hquery : Line.ofText query = .query text)
    (hlast : ¬(standard.after lines).Mentions text lastResult)
    (hbefore : ¬(standard.after lines).Mentions text resultBeforeLast)
    (queries : List String) (hqueries : ∀ line ∈ queries, '=' ∉ line.toList) :
    ((standard.after (lines ++ query :: queries)).run query).1 =
      ((standard.after lines).run query).1 := by
  have hsign : '=' ∉ query.toList := (Line.ofText_eq_query_iff.1 hquery).1
  have hagree : (standard.after lines).AgreeOff (standard.after (lines ++ query :: queries))
      [lastResult, resultBeforeLast] := by
    rw [after_append]
    exact agreeOff_after_queries (List.forall_mem_cons.2 ⟨hsign, hqueries⟩)
  have htext : ∀ name ∈ [lastResult, resultBeforeLast],
      ¬(standard.after lines).Mentions text name := by
    simp [hlast, hbefore]
  obtain ⟨hopen, hopen'⟩ := standard_isOpen_after lines
  obtain ⟨hlater, hlater'⟩ := standard_isOpen_after (lines ++ query :: queries)
  rw [run_query_value hlater hlater' hquery, run_query_value hopen hopen' hquery,
    hagree.valueOf_eq htext]

/-- The query calls `g`, whose body calls `f`. Between its two answers the last two results change
four times, and two queries fail. -/
theorem run_query_again_called :
    let lines := ["k = 3", "f(x) = x * k", "g(x) = f(x) + f(1)", "7"]
    let queries := ["ans + 1", "1 / 0", "preans * k", ")"]
    (Line.ofText " g(k) - 1" = .query "g(k) - 1" ∧
      ¬(standard.after lines).Mentions "g(k) - 1" lastResult ∧
      ¬(standard.after lines).Mentions "g(k) - 1" resultBeforeLast ∧
      ∀ line ∈ queries, '=' ∉ line.toList) ∧
      ((standard.after (lines ++ " g(k) - 1" :: queries)).run " g(k) - 1").1 =
        ((standard.after lines).run " g(k) - 1").1 ∧
      ((standard.after lines).run " g(k) - 1").1 = .ok 11 := by
  intro lines queries
  have hline : Line.ofText " g(k) - 1" = .query "g(k) - 1" := by decide +kernel
  have hqueries : ∀ line ∈ queries, '=' ∉ line.toList := by decide +kernel
  have hnot (name : String) (hname : name ∈ [lastResult, resultBeforeLast]) :
      ¬(standard.after lines).Mentions "g(k) - 1" name := by
    apply not_mentions_of_closed
      [⟨.call, "g"⟩, ⟨.leftBracket, "("⟩, ⟨.ident, "k"⟩, ⟨.rightBracket, ")"⟩, ⟨.minus, "-"⟩,
        ⟨.number, "1"⟩] ["f", "g"]
    · decide +kernel
    · revert name
      decide +kernel
    · decide +kernel
    · decide +kernel
    · revert name
      decide +kernel
  have hlast := hnot lastResult (by decide)
  have hbefore := hnot resultBeforeLast (by decide)
  exact ⟨⟨hline, hlast, hbefore, hqueries⟩,
    run_query_again lines _ _ hline hlast hbefore queries hqueries, by decide +kernel⟩

end SymbolTable

end Calculator
