import Calculator.Proofs.Grammar.Sound

/-!
# Expressions and their derivations

`Expr.parse` accepts exactly the sums of the grammar, in so far as its levels suffice: it returns
the tree of a derivation, and any derivation of tokens that end where it may stop is the one
whose tree it returns.

Results:
* `Expr.parse_of_spans`: the answer where a sum stands, as a function of its levels alone.
* `Expr.parseAll_tokens`: the answer where there is nothing but a sum.
* `Expr.exists_spans_of_parse`: an expression that is returned is a sum that stands there.
* `Expr.parse_derives`: both, with the faults, and the expressions that take up all tokens.
-/

namespace Calculator

open Reading

/-- A tree as it is returned when it was read up to the token `next`: at the end of the tokens
zero is added to it. -/
def Expr.upTo (e : Expr) (tokens : List Token) (next : Nat) : Expr :=
  if next = tokens.length then .binary .add e (.number 0) else e

theorem Expr.upTo_injective {e e' : Expr} {tokens : List Token} {next : Nat}
    (h : e.upTo tokens next = e'.upTo tokens next) : e = e' := by
  unfold upTo at h
  split at h
  · cases h
    rfl
  · exact h

/-! ## Where a phrase stands -/

namespace Phrase

variable {p : Phrase .sum} {tokens rest : List Token} {start next : Nat}

/-- The phrase is written with the tokens from `start` up to `next`, and behind them the tokens
end or a closing bracket stands. -/
structure Spans (p : Phrase .sum) (tokens : List Token) (start next : Nat) : Prop where
  start_lt : start < next
  next_le : next ≤ tokens.length
  tokens_eq : (tokens.take next).drop start = p.tokens
  stops : next = tokens.length ∨ ∃ t, tokens[next]? = some t ∧ t.kind = .rightBracket

theorem Spans.drop_eq (h : p.Spans tokens start next) :
    tokens.drop start = p.tokens ++ tokens.drop next := by
  have hlen : start ≤ (tokens.take next).length := by
    have := h.start_lt
    have := h.next_le
    rw [List.length_take]
    omega
  have hsplit : (tokens.take next ++ tokens.drop next).drop start =
      p.tokens ++ tokens.drop next := by
    rw [List.drop_append_of_le_length hlen, h.tokens_eq]
  rwa [List.take_append_drop] at hsplit

theorem Spans.closes (h : p.Spans tokens start next) : Closes (tokens.drop next) := by
  intro t ht
  rw [List.head?_drop] at ht
  rcases h.stops with heq | ⟨t', ht', hk⟩
  · rw [heq, List.getElem?_eq_none (Nat.le_refl _)] at ht
    cases ht
  · rw [ht'] at ht
    cases ht
    exact hk

theorem Spans.finished_eq (h : p.Spans tokens start next) (e : Expr) :
    finished e (tokens.drop next) = e.upTo tokens next := by
  have hnil : tokens.drop next = [] ↔ next = tokens.length := by
    have := h.next_le
    rw [List.drop_eq_nil_iff]
    omega
  unfold finished Expr.upTo
  split <;> split <;> simp_all

/-- A phrase read off the tokens stands before what is left of them. -/
theorem spans_of_drop_eq (h : tokens.drop start = p.tokens ++ rest) (hc : Closes rest) :
    p.Spans tokens start (tokens.length - rest.length) := by
  have hpos := p.length_tokens_pos
  have hlen : tokens.length - start = p.tokens.length + rest.length := by
    rw [← List.length_drop, h, List.length_append]
  have hnext : tokens.length - rest.length = start + p.tokens.length := by omega
  have hrest : tokens.drop (start + p.tokens.length) = rest := by
    rw [← List.drop_drop, h, List.drop_left]
  refine ⟨by omega, Nat.sub_le _ _, ?_, ?_⟩
  · rw [hnext, List.drop_take, h, Nat.add_sub_cancel_left, List.take_left]
  · rw [hnext]
    cases rest with
    | nil =>
      left
      rw [List.length_nil] at hlen
      omega
    | cons t ts =>
      refine Or.inr ⟨t, ?_, hc t rfl⟩
      rw [← List.head?_drop, hrest]
      rfl

/-- Any sum stands where there is nothing but its tokens. -/
theorem spans_tokens (p : Phrase .sum) : p.Spans p.tokens 0 p.tokens.length :=
  ⟨p.length_tokens_pos, Nat.le_refl _, by rw [List.take_length, List.drop_zero], Or.inl rfl⟩

end Phrase

/-! ## The expression at a position -/

namespace Expr

variable {tokens : List Token} {start next : Nat}

/-- Where a sum stands its tree is read, unless it needs more levels than there are. -/
theorem parse_of_spans {p : Phrase .sum} (h : p.Spans tokens start next) :
    parse tokens start =
      if p.levels + 1 ≤ maxLevels then .ok (p.tree.upTo tokens next, next)
      else .error .tooDeeplyNested := by
  unfold parse
  rw [h.drop_eq, sum_tokens p maxLevels h.closes, h.finished_eq, within]
  split
  · simp [Nat.sub_sub_self h.next_le]
  · rfl

theorem exists_spans_of_parse {e : Expr} (h : parse tokens start = .ok (e, next)) :
    ∃ p : Phrase .sum, p.Spans tokens start next ∧ e = p.tree.upTo tokens next := by
  obtain ⟨⟨e', rest⟩, hread, hok⟩ := bind_eq_ok_iff.1 h
  cases hok
  have hyields := sum_yields maxLevels (tokens.drop start)
  rw [hread] at hyields
  obtain ⟨p, htokens, rfl, hc⟩ := hyields
  have hspans := Phrase.spans_of_drop_eq htokens hc
  have hrest : tokens.drop (tokens.length - rest.length) = rest := by
    have := hspans.drop_eq
    rw [htokens] at this
    exact (List.append_cancel_left this).symm
  refine ⟨p, hspans, ?_⟩
  rw [← hspans.finished_eq, hrest]

/-- A tree is read if and only if it is that of a sum which stands there and does not need more
levels than there are. -/
theorem parse_eq_ok_iff {e : Expr} :
    parse tokens start = .ok (e.upTo tokens next, next) ↔
      ∃ p : Phrase .sum, p.Spans tokens start next ∧ p.levels < maxLevels ∧ p.tree = e := by
  constructor
  · intro h
    obtain ⟨p, hspans, he⟩ := exists_spans_of_parse h
    refine ⟨p, hspans, ?_, (upTo_injective he).symm⟩
    rw [parse_of_spans hspans] at h
    split at h
    · next hlevels => exact hlevels
    · cases h
  · rintro ⟨p, hspans, hlevels, rfl⟩
    rw [parse_of_spans hspans]
    exact if_pos hlevels

theorem kind_of_parse_error {f : Fault} (h : parse tokens start = .error f) :
    f.kind = .grammar := by
  rcases bind_eq_error_iff.1 h with hread | ⟨_, _, hok⟩
  · have hyields := sum_yields maxLevels (tokens.drop start)
    rwa [hread] at hyields
  · cases hok

/-- What the tokens of a sum by themselves are read as. -/
theorem parseAll_tokens (p : Phrase .sum) :
    parseAll p.tokens =
      if p.levels + 1 ≤ maxLevels then .ok (.binary .add p.tree (.number 0))
      else .error .tooDeeplyNested := by
  obtain ⟨t, ts, htokens, _⟩ := p.exists_tokens_eq_cons
  have hparse := parse_of_spans p.spans_tokens
  rw [htokens] at hparse ⊢
  rw [parseAll, hparse]
  split
  · simp [upTo]
  · rfl

theorem parseAll_atom (p : Phrase .atom) :
    parseAll p.tokens =
      if p.levels + 1 ≤ maxLevels then .ok (.binary .add p.tree (.number 0))
      else .error .tooDeeplyNested := by
  obtain ⟨q, htokens, htree, hlevels, _⟩ := p.exists_loosened Layer.atom.sum_binding_le
  rw [← htokens, ← htree, ← hlevels, parseAll_tokens]

/-- An expression that takes up all tokens is a sum with zero added to it. -/
theorem exists_tokens_eq_of_parseAll {e : Expr} (h : parseAll tokens = .ok e) :
    ∃ p : Phrase .sum, p.tokens = tokens ∧ e = .binary .add p.tree (.number 0) := by
  cases tokens with
  | nil => cases h
  | cons t ts =>
    obtain ⟨⟨e', next⟩, hparse, hnext⟩ := bind_eq_ok_iff.1 h
    dsimp only at hnext
    split at hnext
    · next hlength =>
      cases hnext
      obtain ⟨p, hspans, rfl⟩ := exists_spans_of_parse hparse
      refine ⟨p, ?_, if_pos hlength⟩
      rw [← hspans.tokens_eq, hlength, List.take_length, List.drop_zero]
    · cases hnext

theorem kind_of_parseAll_error {f : Fault} (h : parseAll tokens = .error f) :
    f.kind = .grammar := by
  cases tokens with
  | nil =>
    cases h
    rfl
  | cons t ts =>
    rcases bind_eq_error_iff.1 h with hparse | ⟨⟨e, next⟩, _, hnext⟩
    · exact kind_of_parse_error hparse
    · dsimp only at hnext
      split at hnext <;> cases hnext
      rfl

/-- The reader of expressions and the grammar. What is read is a sum that stands at `start` and
stops at the end of the tokens or at a closing bracket; where such a sum stands it is read, or it
is nested too deeply; and no fault is other than one of the grammar. An expression of all tokens
is a sum of all tokens. -/
theorem parse_derives (tokens : List Token) (start : Nat) :
    (∀ e next, parse tokens start = .ok (e, next) →
      ∃ p : Phrase .sum, p.Spans tokens start next ∧ e = p.tree.upTo tokens next) ∧
    (∀ (p : Phrase .sum) next, p.Spans tokens start next →
      parse tokens start = .ok (p.tree.upTo tokens next, next) ∨
      parse tokens start = .error .tooDeeplyNested) ∧
    (∀ f, parse tokens start = .error f → f.kind = .grammar) ∧
    (∀ e, parseAll tokens = .ok e →
      ∃ p : Phrase .sum, p.tokens = tokens ∧ e = .binary .add p.tree (.number 0)) ∧
    Fault.tooDeeplyNested.message = "Expression too deeply nested" := by
  refine ⟨fun e next h => exists_spans_of_parse h, ?_, fun f h => kind_of_parse_error h,
    fun e h => exists_tokens_eq_of_parseAll h, rfl⟩
  intro p next h
  rw [parse_of_spans h]
  split
  · exact Or.inl rfl
  · exact Or.inr rfl

end Expr

end Calculator
