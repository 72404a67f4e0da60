import Calculator.Proofs.Grammar.Complete

/-!
# The reader reads nothing but phrases

Whatever the reader returns is the tree of a phrase whose tokens it took, and every fault of the
reader is one of the grammar. `Yields P r` states both of a reading at once, so that one
induction on the levels left proves them together.

In the induction a chain is entered with a phrase as its left operand. The phrase must hold
together at least as tightly as the next operator binds, for else the operator would belong to
the last operand of the phrase; this is kept by every turn of the chain, since the right operand
of an operator is read until no tighter operator follows.

Results:
* `Reading.sum_yields`: an expression is a sum, and ends the tokens or stands before a closing
  bracket.
-/

namespace Calculator

theorem Token.Kind.binding_le_of_followsOperand {k : Token.Kind} (h : k.followsOperand) :
    k.binding ≤ Layer.post.binding := by
  cases k <;> first | exact absurd h (by decide) | decide

theorem Layer.binding_le_of_least_le {l m : Layer} (h : m.least ≤ l.binding) :
    m.binding ≤ l.binding := by
  cases m <;> cases l <;> first | decide | exact absurd h (by decide)

/-- The layer of the right operands of an operator. -/
theorem Operator.exists_joins (op : Operator) :
    ∃ inner : Layer, op.layer.Joins inner ∧ inner.binding ≤ Layer.post.binding := by
  cases op with
  | add => exact ⟨.term, .terms, by decide⟩
  | sub => exact ⟨.term, .terms, by decide⟩
  | mul => exact ⟨.power, .powers, by decide⟩
  | div => exact ⟨.power, .powers, by decide⟩
  | pow => exact ⟨.post, .posts, by decide⟩
  | sci => exact ⟨.post, .posts, by decide⟩

namespace Reading

/-! ## Readings with a postcondition -/

/-- What was read satisfies `P`, or the reading ended with a fault of the grammar. -/
def Yields (P : Expr → List Token → Prop) : Reading → Prop
  | .ok (e, rest) => P e rest
  | .error f => f.kind = .grammar

section Rules

variable {P Q : Expr → List Token → Prop} {r : Reading}

theorem yields_mono (h : Yields P r) (hPQ : ∀ e rest, P e rest → Q e rest) : Yields Q r := by
  cases r with
  | error f => exact h
  | ok x => exact hPQ x.1 x.2 h

theorem yields_bind {g : Expr × List Token → Reading} (h : Yields P r)
    (hg : ∀ e rest, P e rest → Yields Q (g (e, rest))) : Yields Q (r >>= g) := by
  cases r with
  | error f => exact h
  | ok x => exact hg x.1 x.2 h

theorem yields_mapExpr {f : Expr → Expr} (h : Yields (fun e rest => Q (f e) rest) r) :
    Yields Q (mapExpr f r) := by
  cases r with
  | error f => exact h
  | ok x => exact h

theorem yields_closed
    (h : Yields (fun e rest => ∀ t rest', rest = t :: rest' → t.kind = .rightBracket → Q e rest')
      r) : Yields Q (closed r) := by
  match r, h with
  | .error f, h => exact h
  | .ok (e, []), _ => rfl
  | .ok (e, t :: rest), h =>
    rw [closed]
    split
    · next ht => exact h t rest rfl ht
    · rfl

theorem yields_opened {n : Nat} {inside : Nat → Reading}
    (h : ∀ k, n = k + 1 → Yields Q (inside k)) : Yields Q (opened inside n) := by
  cases n with
  | zero => rfl
  | succ k => exact h k rfl

end Rules

/-! ## What is read -/

/-- An atom was read off the tokens. -/
def ReadsAtom (ts : List Token) (e : Expr) (rest : List Token) : Prop :=
  ∃ p : Phrase .atom, ts = p.tokens ++ rest ∧ e = p.tree

/-- A sum was read off the tokens, up to their end or a closing bracket. -/
def ReadsSum (ts : List Token) (e : Expr) (rest : List Token) : Prop :=
  ∃ p : Phrase .sum, ts = p.tokens ++ rest ∧ e = finished p.tree rest ∧ Closes rest

/-- The tokens `left` of a phrase were continued to a phrase of the layer `m`, and no operator of
this layer follows. -/
def Continues (m : Layer) (left ts : List Token) (e : Expr) (rest : List Token) : Prop :=
  ∃ p : Phrase m, left ++ ts = p.tokens ++ rest ∧
    e = (if m.least = 0 then finished p.tree rest else p.tree) ∧
    Below m.least rest ∧ GoesOn rest

/-- With `n` levels left every operand that is read is an atom. -/
def OperandSound (n : Nat) : Prop := ∀ ts, Yields (ReadsAtom ts) (operand n ts)

/-- With `n` levels left a chain continues a phrase that no operator ahead breaks up. -/
def ChainSound (n : Nat) : Prop :=
  ∀ {l m : Layer} (p : Phrase l) (ts : List Token), m.binding ≤ l.binding →
    m.binding ≤ Layer.post.binding → Below (l.binding + 1) ts →
    Yields (Continues m p.tokens ts) (chain n p.tree m.least ts)

theorem closes_of_below_zero {rest : List Token} (hb : Below 0 rest) (hg : GoesOn rest) :
    Closes rest := by
  intro t ht
  rcases hg t ht with hr | hk
  · exact hr
  · exact absurd (hb t ht hk) (Nat.not_lt_zero _)

theorem below_of_not_bindsTighter {b : Nat} {rest : List Token}
    (h : ¬bindsTighter b rest) : Below (b + 1) rest := by
  cases rest with
  | nil => rintro _ ⟨⟩
  | cons t rest =>
    simp only [bindsTighter, Bool.or_eq_true, Bool.and_eq_true, decide_eq_true_eq, not_or,
      not_and, Nat.not_lt] at h
    rintro _ ⟨⟩ hk
    simp only [Token.Kind.followsOperand, Bool.or_eq_true, decide_eq_true_eq] at hk
    exact Nat.lt_succ_of_le (h.2 (hk.resolve_left h.1))

theorem below_atom (ts : List Token) : Below (Layer.atom.binding + 1) ts := by
  intro t _ hk
  have := Token.Kind.binding_le_of_followsOperand hk
  have : Layer.post.binding < Layer.atom.binding := Layer.Joins.atoms.binding_lt
  omega

theorem below_post (ts : List Token) : Below (Layer.post.binding + 1) ts :=
  fun _ _ hk => Nat.lt_succ_of_le (Token.Kind.binding_le_of_followsOperand hk)

/-! ## One turn of the reader -/

section Turn

variable {n : Nat}

theorem sumWith_yields (ho : OperandSound n) (hc : ChainSound n) (ts : List Token) :
    Yields (ReadsSum ts) (sumWith (operand n) (chain n) ts) := by
  cases ts with
  | nil => rfl
  | cons t ts =>
    by_cases ht : t.kind.startsOperand
    · rw [sumWith_cons ht]
      refine yields_bind (ho (t :: ts)) ?_
      rintro e rest ⟨p, htokens, rfl⟩
      have hchain := hc (m := .sum) p rest (by decide) (by decide) (below_atom rest)
      refine yields_mono hchain ?_
      rintro e rest' ⟨q, heq, he, hb, hg⟩
      exact ⟨q, htokens.trans heq, he, closes_of_below_zero hb hg⟩
    · rw [sumWith, if_neg ht]
      rfl

/-- The right operand of an operator is a phrase of the layer within that of the operator. -/
theorem tightened_yields (ho : OperandSound n) (hc : ChainSound n) {outer inner : Layer}
    (hj : outer.Joins inner) (hpost : inner.binding ≤ Layer.post.binding) (ts : List Token) :
    Yields (fun e rest => ∃ p : Phrase inner, ts = p.tokens ++ rest ∧ e = p.tree ∧
      Below (outer.binding + 1) rest) (tightened n outer.binding ts) := by
  refine yields_bind (ho ts) ?_
  rintro e rest ⟨p, htokens, rfl⟩
  dsimp only
  split
  · have hchain := hc p rest inner.binding_le_atom hpost (below_atom rest)
    rw [hj.least_eq] at hchain
    refine yields_mono hchain ?_
    rintro e rest' ⟨q, heq, he, hb, _⟩
    rw [hj.least_eq] at he hb
    rw [if_neg (Nat.succ_ne_zero _)] at he
    exact ⟨q, htokens.trans heq, he, hb⟩
  · next hn =>
    obtain ⟨q, hq, htree, _⟩ := p.exists_loosened inner.binding_le_atom
    exact ⟨q, hq ▸ htokens, htree.symm, below_of_not_bindsTighter hn⟩

theorem operand_sign_yields (h : ∀ k, n = k + 1 → OperandSound k) {t : Token} {op : Operator}
    (ht : t.kind.operator? = some op) (hop : op.layer = .sum) (rest : List Token) :
    Yields (ReadsAtom (t :: rest)) (operand n (t :: rest)) := by
  rw [operand_sign ht hop]
  refine yields_opened fun k hn => yields_mapExpr (yields_mono (h k hn rest) ?_)
  rintro e rest' ⟨p, rfl, rfl⟩
  exact ⟨.signed t op p ht hop, rfl, rfl⟩

theorem operandSound_of_lt (h : ∀ k, n = k + 1 → OperandSound k ∧ ChainSound k) :
    OperandSound n := by
  intro ts
  cases ts with
  | nil =>
    rw [operand_nil]
    rfl
  | cons t rest =>
    cases hk : t.kind with
    | number =>
      rw [operand_number hk]
      exact ⟨.number t hk, rfl, rfl⟩
    | ident =>
      rw [operand_name hk]
      exact ⟨.name t hk, rfl, rfl⟩
    | leftBracket =>
      rw [operand_bracket hk]
      refine yields_opened fun k hn => yields_closed ?_
      refine yields_mono (sumWith_yields (h k hn).1 (h k hn).2 rest) ?_
      rintro e _ ⟨p, htokens, rfl, _⟩ closing rest' rfl hc
      refine ⟨.bracketed t p closing hk hc, ?_, if_neg (List.cons_ne_nil _ _)⟩
      simp [htokens]
    | call =>
      cases rest with
      | nil =>
        rw [operand_call_nil hk]
        rfl
      | cons bracket inner =>
        by_cases hb : bracket.kind = .leftBracket ∧ 2 ≤ inner.length
        · rw [operand_call hk hb.1 hb.2]
          refine yields_opened fun k hn => yields_mapExpr (yields_closed ?_)
          refine yields_mono (sumWith_yields (h k hn).1 (h k hn).2 inner) ?_
          rintro e _ ⟨p, htokens, rfl, _⟩ closing rest' rfl hc
          refine ⟨.call t bracket p closing hk hb.1 hc, ?_, ?_⟩
          · simp [htokens]
          · rw [finished, if_neg (List.cons_ne_nil _ _)]
            rfl
        · rw [operand_call_of_not hk hb]
          rfl
    | plus => exact operand_sign_yields (fun k hn => (h k hn).1) (by rw [hk]; rfl) rfl rest
    | minus => exact operand_sign_yields (fun k hn => (h k hn).1) (by rw [hk]; rfl) rfl rest
    | rightBracket | star | slash | caret | bang | sci =>
      rw [operand_other (by rw [hk]; rfl)]
      rfl

/-- A chain that ends here has read its left operand. -/
theorem continues_self {l m : Layer} (p : Phrase l) {rest : List Token}
    (hm : m.binding ≤ l.binding) (hb : Below m.least rest) (hg : GoesOn rest) :
    Continues m p.tokens rest (if m.least = 0 then finished p.tree rest else p.tree) rest := by
  obtain ⟨q, hq, htree, _⟩ := p.exists_loosened hm
  exact ⟨q, by rw [hq], by rw [htree], hb, hg⟩

theorem continues_self_cons {l m : Layer} (p : Phrase l) {t : Token} {rest : List Token}
    (hm : m.binding ≤ l.binding) (hb : Below m.least (t :: rest)) (hg : GoesOn (t :: rest)) :
    Continues m p.tokens (t :: rest) p.tree (t :: rest) := by
  have hself := continues_self p hm hb hg
  rwa [finished, if_neg (List.cons_ne_nil _ _), ite_self] at hself

/-- A factorial is put on whatever phrase stands before it. -/
theorem chain_bang_yields (h : ∀ k, n = k + 1 → ChainSound k) {l m : Layer} (p : Phrase l)
    {t : Token} {rest : List Token} (ht : t.kind = .bang)
    (hpost : m.binding ≤ Layer.post.binding) (hfits : Below (l.binding + 1) (t :: rest)) :
    Yields (Continues m p.tokens (t :: rest)) (chain n p.tree m.least (t :: rest)) := by
  have hlt : t.kind.binding < l.binding + 1 := hfits t rfl (by rw [ht]; rfl)
  rw [ht] at hlt
  have hl : Layer.post.binding ≤ l.binding := Nat.le_of_lt_succ hlt
  obtain ⟨q, hq, htree, _⟩ := p.exists_loosened hl
  rw [chain_bang ht, ← htree]
  refine yields_opened fun k hn => ?_
  have hchain := h k hn (.factorial q t ht) rest hpost hpost (below_post rest)
  refine yields_mono hchain ?_
  rintro e rest' ⟨q', heq, he, hb, hg⟩
  refine ⟨q', ?_, he, hb, hg⟩
  simp [← heq, ← hq]

/-- An operator that the chain takes up joins the phrase before it with the operand behind it. -/
theorem chain_operator_yields (h : ∀ k, n = k + 1 → OperandSound k ∧ ChainSound k)
    {l m : Layer} (p : Phrase l) {t : Token} {op : Operator} {rest : List Token}
    (hop : t.kind.operator? = some op) (hw : ¬t.kind.binding < m.least)
    (hpost : m.binding ≤ Layer.post.binding) (hfits : Below (l.binding + 1) (t :: rest)) :
    Yields (Continues m p.tokens (t :: rest)) (chain n p.tree m.least (t :: rest)) := by
  have hfollows := Token.Kind.followsOperand_of_operator? hop
  have hbinding := Token.Kind.binding_of_operator? hop
  have hl : op.layer.binding ≤ l.binding :=
    hbinding ▸ Nat.le_of_lt_succ (hfits t rfl hfollows)
  have hm : m.binding ≤ op.layer.binding :=
    Layer.binding_le_of_least_le (hbinding ▸ Nat.le_of_not_lt hw)
  obtain ⟨inner, hj, hinner⟩ := op.exists_joins
  obtain ⟨q, hq, htree, _⟩ := p.exists_loosened hl
  rw [chain_operator hop hw, hbinding, ← htree]
  refine yields_opened fun k hn => ?_
  refine yields_bind (tightened_yields (h k hn).1 (h k hn).2 hj hinner rest) ?_
  rintro e rest' ⟨right, htokens, rfl, hb⟩
  have hchain := (h k hn).2 (.joined q t op right hj hop rfl) rest' hm hpost hb
  refine yields_mono hchain ?_
  rintro e rest'' ⟨q', heq, he, hb', hg⟩
  refine ⟨q', ?_, he, hb', hg⟩
  simp [← heq, ← hq, htokens]

theorem chainSound_of_lt (h : ∀ k, n = k + 1 → OperandSound k ∧ ChainSound k) :
    ChainSound n := by
  intro l m p ts hm hpost hfits
  cases ts with
  | nil =>
    rw [chain_nil]
    exact continues_self p hm (by rintro _ ⟨⟩) (by rintro _ ⟨⟩)
  | cons t rest =>
    by_cases hr : t.kind = .rightBracket
    · have hc := closes_cons hr rest
      rw [chain_rightBracket hr]
      exact continues_self_cons p hm (hc.below _) hc.goesOn
    by_cases hbang : t.kind = .bang
    · exact chain_bang_yields (fun k hn => (h k hn).2) p hbang hpost hfits
    cases hop : t.kind.operator? with
    | none =>
      rw [chain_other hr hbang hop]
      rfl
    | some op =>
      by_cases hw : t.kind.binding < m.least
      · have hfollows := Token.Kind.followsOperand_of_operator? hop
        rw [chain_weaker hop hw]
        exact continues_self_cons p hm (below_cons hw rest) (goesOn_cons hfollows rest)
      · exact chain_operator_yields h p hop hw hpost hfits

end Turn

/-! ## All levels -/

theorem operandSound_and_chainSound (n : Nat) : OperandSound n ∧ ChainSound n := by
  induction n with
  | zero =>
    have h : ∀ k, 0 = k + 1 → OperandSound k ∧ ChainSound k := fun k hk => by cases hk
    exact ⟨operandSound_of_lt h, chainSound_of_lt h⟩
  | succ n ih =>
    have h : ∀ k, n + 1 = k + 1 → OperandSound k ∧ ChainSound k := fun k hk => by
      cases hk
      exact ih
    exact ⟨operandSound_of_lt h, chainSound_of_lt h⟩

theorem sum_yields (n : Nat) (ts : List Token) : Yields (ReadsSum ts) (sum n ts) := by
  rw [sum_eq_opened]
  refine yields_opened fun k _ => ?_
  exact sumWith_yields (operandSound_and_chainSound k).1 (operandSound_and_chainSound k).2 ts

end Reading

end Calculator
