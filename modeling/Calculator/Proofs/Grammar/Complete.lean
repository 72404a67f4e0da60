import Calculator.Proofs.Grammar.Steps

/-!
# The reader reads every phrase

A reader that meets the tokens of a phrase reads the tree of the phrase and stops behind it, if
it has as many levels left as the phrase needs; with fewer it ends with the fault of a nesting
that is too deep, and with no other. For a layer with operators this is a statement about an
operand and the chain behind it: they arrive at the chain behind the phrase with its tree as the
left operand (`Phrase.IsHead`). The tokens behind the phrase must not take its last operand away.

Results:
* `Phrase.isHead`: a phrase of any layer is read by `Reading.chained`.
* `Reading.sum_tokens`: a sum that ends the tokens or stands before a closing bracket.
-/

namespace Calculator

/-- An operator that stands behind an operand. -/
def Token.Kind.followsOperand (k : Token.Kind) : Bool := k = bang || k.isBinaryOperator

theorem Token.Kind.followsOperand_of_operator? {k : Token.Kind} {op : Operator}
    (h : k.operator? = some op) : k.followsOperand := by
  simp [followsOperand, isBinaryOperator_of_operator? h]

namespace Reading

/-! ## Levels -/

/-- What is read if there are as many levels as it costs. -/
def within (cost n : Nat) (r : Reading) : Reading :=
  if cost ≤ n then r else .error .tooDeeplyNested

theorem opened_eq_within (inside : Nat → Reading) (n : Nat) :
    opened inside n = within 1 n (inside (n - 1)) := by
  cases n <;> rfl

theorem within_within {a b c n m : Nat} (h : c ≤ n ↔ a ≤ n ∧ b ≤ m) (r : Reading) :
    within a n (within b m r) = within c n r := by
  unfold within
  by_cases ha : a ≤ n
  · by_cases hb : b ≤ m
    · rw [if_pos ha, if_pos hb, if_pos (h.2 ⟨ha, hb⟩)]
    · rw [if_pos ha, if_neg hb, if_neg (fun hc => hb (h.1 hc).2)]
  · rw [if_neg ha, if_neg (fun hc => ha (h.1 hc).1)]

theorem within_bind (cost n : Nat) (r : Reading) (g : Expr × List Token → Reading) :
    within cost n r >>= g = within cost n (r >>= g) := by
  unfold within
  split <;> rfl

theorem mapExpr_within (f : Expr → Expr) (cost n : Nat) (r : Reading) :
    mapExpr f (within cost n r) = within cost n (mapExpr f r) := by
  unfold within
  split <;> rfl

theorem closed_within (cost n : Nat) (r : Reading) :
    closed (within cost n r) = within cost n (closed r) := by
  unfold within
  split <;> rfl

theorem within_ok_ne {cost n : Nat} {x : Expr × List Token} {f : Fault}
    (hf : f ≠ .tooDeeplyNested) : within cost n (.ok x) ≠ .error f := by
  unfold within
  split
  · exact fun h => by cases h
  · exact fun h => hf (by cases h; rfl)

/-! ## The tokens behind a phrase -/

/-- The tokens begin with no operator that binds with `b` or more. -/
def Below (b : Nat) (ts : List Token) : Prop :=
  ∀ t ∈ ts.head?, t.kind.followsOperand → t.kind.binding < b

/-- The tokens are at their end, or go on with a closing bracket or an operator. -/
def GoesOn (ts : List Token) : Prop :=
  ∀ t ∈ ts.head?, t.kind = .rightBracket ∨ t.kind.followsOperand

/-- The tokens are at their end, or at a closing bracket. -/
def Closes (ts : List Token) : Prop := ∀ t ∈ ts.head?, t.kind = .rightBracket

theorem Below.mono {a b : Nat} {ts : List Token} (h : Below a ts) (hab : a ≤ b) : Below b ts :=
  fun t ht hk => Nat.lt_of_lt_of_le (h t ht hk) hab

theorem Closes.goesOn {ts : List Token} (h : Closes ts) : GoesOn ts :=
  fun t ht => Or.inl (h t ht)

theorem Closes.below {ts : List Token} (h : Closes ts) (b : Nat) : Below b ts := by
  intro t ht hk
  rw [h t ht] at hk
  cases hk

theorem closes_cons {t : Token} (h : t.kind = .rightBracket) (ts : List Token) :
    Closes (t :: ts) := by
  rintro _ ⟨⟩
  exact h

theorem below_cons {t : Token} {b : Nat} (h : t.kind.binding < b) (ts : List Token) :
    Below b (t :: ts) := by
  rintro _ ⟨⟩ _
  exact h

theorem goesOn_cons {t : Token} (h : t.kind.followsOperand) (ts : List Token) :
    GoesOn (t :: ts) := by
  rintro _ ⟨⟩
  exact Or.inr h

/-- A chain takes up nothing if no operator binds tightly enough. -/
theorem chain_eq_self {n least : Nat} {e : Expr} {ts : List Token} (hpos : 0 < least)
    (hle : least ≤ Token.Kind.bang.binding) (hb : Below least ts) (hg : GoesOn ts) :
    chain n e least ts = .ok (e, ts) := by
  cases ts with
  | nil => rw [chain_nil, if_neg (Nat.ne_of_gt hpos)]
  | cons t ts =>
    rcases hg t rfl with hr | hk
    · exact chain_rightBracket hr
    · have hlt : t.kind.binding < least := hb t rfl hk
      have hbang : t.kind ≠ .bang := fun h => by
        rw [h] at hlt
        exact Nat.not_lt_of_le hle hlt
      cases hop : t.kind.operator? with
      | some op => exact chain_weaker hop hlt
      | none =>
        have hnot := t.kind.isSome_operator?
        simp only [Token.Kind.followsOperand, hbang, ← hnot, hop] at hk
        cases hk

/-- Reading the right operand of an operator is reading it with its chain, unless the chain
meets a token that is no operator. -/
theorem tightened_eq_chained {n b : Nat} {ts : List Token}
    (h : ∀ text, chained n (b + 1) ts ≠ .error (.expectedOperator text)) :
    tightened n b ts = chained n (b + 1) ts := by
  unfold chained at h
  unfold tightened chained
  cases hread : operand n ts with
  | error f => rfl
  | ok x =>
    obtain ⟨e, rest⟩ := x
    rw [hread] at h
    change (if bindsTighter b rest then _ else _) = chain n e (b + 1) rest
    split
    · rfl
    · next hn =>
      cases rest with
      | nil => rw [chain_nil, if_neg (Nat.succ_ne_zero b)]
      | cons t rest =>
        simp only [bindsTighter, Bool.or_eq_true, Bool.and_eq_true, decide_eq_true_eq,
          not_or, not_and, Nat.not_lt] at hn
        by_cases hr : t.kind = .rightBracket
        · rw [chain_rightBracket hr]
        · cases hop : t.kind.operator? with
          | none => exact absurd (chain_other hr hn.1 hop) (h t.text)
          | some op =>
            have hle := hn.2 (Token.Kind.isBinaryOperator_of_operator? hop)
            rw [chain_weaker hop (Nat.lt_succ_of_le hle)]

end Reading

/-! ## Phrases -/

namespace Phrase

open Reading

variable {l : Layer}

/-- The phrase is read as one operand, whatever stands behind it. -/
def IsOperand (p : Phrase l) : Prop :=
  ∀ n rest, operand n (p.tokens ++ rest) = within p.levels n (.ok (p.tree, rest))

/-- The phrase is read as the head of every chain that takes up the operators of its layer. -/
def IsHead (p : Phrase l) : Prop :=
  ∀ n least rest, least ≤ l.binding → Below (l.binding + 1) rest → GoesOn rest →
    chained n least (p.tokens ++ rest) =
      within p.levels n (chain (n - p.folds) p.tree least rest)

theorem IsOperand.isHead {p : Phrase l} (h : p.IsOperand) (hfolds : p.folds = 0) : p.IsHead := by
  intro n least rest _ _ _
  unfold chained
  rw [h n rest, within_bind, hfolds]
  rfl

theorem IsHead.chained_eq {p : Phrase l} (h : p.IsHead) {n least : Nat} {rest : List Token}
    (hpos : 0 < least) (hl : least ≤ l.binding) (hbang : least ≤ Token.Kind.bang.binding)
    (hb : Below least rest) (hg : GoesOn rest) :
    chained n least (p.tokens ++ rest) = within p.levels n (.ok (p.tree, rest)) := by
  have hb' : Below (l.binding + 1) rest := hb.mono (Nat.le_succ_of_le hl)
  rw [h n least rest hl hb' hg, chain_eq_self hpos hbang hb hg]

/-- The inside of a bracket and the bracket that closes it. -/
theorem IsHead.closed_sumWith {p : Phrase .sum} (h : p.IsHead) {closing : Token}
    (hc : closing.kind = .rightBracket) (n : Nat) (rest : List Token) :
    closed (sumWith (operand n) (chain n) (p.tokens ++ closing :: rest)) =
      within p.levels n (.ok (p.tree, rest)) := by
  have hcl : Closes (closing :: rest) := closes_cons hc rest
  obtain ⟨t, ts, htokens, ht⟩ := p.exists_tokens_eq_cons
  have hread : sumWith (operand n) (chain n) (p.tokens ++ closing :: rest) =
      within p.levels n (.ok (p.tree, closing :: rest)) := by
    rw [htokens, List.cons_append, sumWith_cons ht, ← List.cons_append, ← htokens,
      h n 0 _ (Nat.zero_le _) (hcl.below _) hcl.goesOn, chain_rightBracket hc]
  rw [hread, closed_within]
  simp only [closed, hc, if_true]

theorem isOperand_number (t : Token) (ht : t.kind = .number) : (number t ht).IsOperand := by
  intro n rest
  exact operand_number ht

theorem isOperand_name (t : Token) (ht : t.kind = .ident) : (name t ht).IsOperand := by
  intro n rest
  exact operand_name ht

theorem isOperand_bracketed {opening closing : Token} {p : Phrase .sum}
    (ho : opening.kind = .leftBracket) (hc : closing.kind = .rightBracket) (h : p.IsHead) :
    (bracketed opening p closing ho hc).IsOperand := by
  intro n rest
  have hread : operand n (opening :: (p.tokens ++ closing :: rest)) =
      within (p.levels + 1) n (.ok (p.tree, rest)) := by
    rw [operand_bracket ho, opened_eq_within, h.closed_sumWith hc]
    exact within_within (by omega) _
  simpa using hread

theorem isOperand_call {function opening closing : Token} {p : Phrase .sum}
    (hf : function.kind = .call) (ho : opening.kind = .leftBracket)
    (hc : closing.kind = .rightBracket) (h : p.IsHead) :
    (call function opening p closing hf ho hc).IsOperand := by
  intro n rest
  have hlen : 2 ≤ (p.tokens ++ closing :: rest).length := by
    have := p.length_tokens_pos
    rw [List.length_append, List.length_cons]
    omega
  have hread : operand n (function :: opening :: (p.tokens ++ closing :: rest)) =
      within (p.levels + 1) n (.ok (.call function.text p.tree, rest)) := by
    rw [operand_call hf ho hlen, opened_eq_within, h.closed_sumWith hc, mapExpr_within]
    exact within_within (by omega) _
  simpa using hread

theorem isOperand_signed {sign : Token} {op : Operator} {p : Phrase .atom}
    (hs : sign.kind.operator? = some op) (hop : op.layer = .sum) (h : p.IsOperand) :
    (signed sign op p hs hop).IsOperand := by
  intro n rest
  have hread : operand n (sign :: (p.tokens ++ rest)) =
      within (p.levels + 1) n (.ok (.binary op (.number 0) p.tree, rest)) := by
    rw [operand_sign hs hop, opened_eq_within, h, mapExpr_within]
    exact within_within (by omega) _
  simpa using hread

theorem isHead_factorial {bang : Token} {p : Phrase .post} (hb : bang.kind = .bang)
    (h : p.IsHead) : (factorial p bang hb).IsHead := by
  intro n least rest hl _ _
  have hbelow : Below (Layer.post.binding + 1) (bang :: rest) :=
    below_cons (by rw [hb]; decide) rest
  have hgoes : GoesOn (bang :: rest) := goesOn_cons (by rw [hb]; rfl) rest
  have hread : chained n least (p.tokens ++ bang :: rest) =
      within (max p.levels (p.folds + 1)) n
        (chain (n - (p.folds + 1)) (.factorial p.tree) least rest) := by
    rw [h n least _ hl hbelow hgoes, chain_bang hb, opened_eq_within, Nat.sub_sub]
    exact within_within (by omega) _
  simpa using hread

theorem isHead_joined {outer inner : Layer} {t : Token} {op : Operator} {left : Phrase outer}
    {right : Phrase inner} (hj : outer.Joins inner) (ht : t.kind.operator? = some op)
    (hop : op.layer = outer) (hleft : left.IsHead) (hright : right.IsHead) :
    (joined left t op right hj ht hop).IsHead := by
  intro n least rest hl hb hg
  have hbinding : t.kind.binding = outer.binding := by
    rw [Token.Kind.binding_of_operator? ht, hop]
  have hbelow : Below (outer.binding + 1) (t :: (right.tokens ++ rest)) :=
    below_cons (by omega) _
  have hgoes : GoesOn (t :: (right.tokens ++ rest)) :=
    goesOn_cons (Token.Kind.followsOperand_of_operator? ht) _
  have hbang : outer.binding < Token.Kind.bang.binding := hop ▸ op.layer_binding_lt
  have hlt := hj.binding_lt
  -- the chain behind the right operand stops where the phrase ends
  have htight : ∀ k, tightened k t.kind.binding (right.tokens ++ rest) =
      within right.levels k (.ok (right.tree, rest)) := by
    intro k
    have hchained := hright.chained_eq (n := k) (Nat.succ_pos outer.binding) hlt hbang hb hg
    rw [hbinding, tightened_eq_chained, hchained]
    intro text
    rw [hchained]
    exact within_ok_ne (by simp)
  have hlevel : ∀ m r, within 1 m (within right.levels (m - 1) r) =
      within (right.levels + 1) m r := fun m r => within_within (by omega) r
  have hread : chained n least (left.tokens ++ t :: (right.tokens ++ rest)) =
      within (max left.levels (left.folds + 1 + right.levels)) n
        (chain (n - (left.folds + 1)) (.binary op left.tree right.tree) least rest) := by
    rw [hleft n least _ hl hbelow hgoes, chain_operator ht (by omega), opened_eq_within, htight,
      within_bind, hlevel, Nat.sub_sub]
    exact within_within (by omega) _
  simpa using hread

theorem isHead_single {outer inner : Layer} {p : Phrase inner} (hj : outer.Joins inner)
    (h : p.IsHead) : (single hj p).IsHead := by
  intro n least rest hl hb hg
  have hlt := hj.binding_lt
  exact h n least rest (by omega) (hb.mono (by omega)) hg

/-- The two ways to read a phrase, by induction on the derivation: a sign needs its operand read
alone, all else needs the head of a chain. -/
theorem isHead_and_isOperand (p : Phrase l) : p.IsHead ∧ (l = .atom → p.IsOperand) := by
  induction p with
  | number t ht =>
    have h := isOperand_number t ht
    exact ⟨h.isHead rfl, fun _ => h⟩
  | name t ht =>
    have h := isOperand_name t ht
    exact ⟨h.isHead rfl, fun _ => h⟩
  | bracketed opening p closing ho hc ih =>
    have h := isOperand_bracketed ho hc ih.1
    exact ⟨h.isHead rfl, fun _ => h⟩
  | call function opening p closing hf ho hc ih =>
    have h := isOperand_call hf ho hc ih.1
    exact ⟨h.isHead rfl, fun _ => h⟩
  | signed sign op p hs hop ih =>
    have h := isOperand_signed hs hop (ih.2 rfl)
    exact ⟨h.isHead rfl, fun _ => h⟩
  | factorial p bang hb ih => exact ⟨isHead_factorial hb ih.1, fun h => by cases h⟩
  | joined left t op right hj ht hop ihl ihr =>
    exact ⟨isHead_joined hj ht hop ihl.1 ihr.1, fun h => by cases h; cases hj⟩
  | single hj p ih => exact ⟨isHead_single hj ih.1, fun h => by cases h; cases hj⟩

theorem isHead (p : Phrase l) : p.IsHead := p.isHead_and_isOperand.1

end Phrase

namespace Reading

/-- A tree as it is given back: at the end of the tokens zero is added to it. -/
def finished (e : Expr) (rest : List Token) : Expr :=
  if rest = [] then .binary .add e (.number 0) else e

theorem chain_of_closes {n : Nat} {e : Expr} {rest : List Token} (h : Closes rest) :
    chain n e 0 rest = .ok (finished e rest, rest) := by
  cases rest with
  | nil => rw [chain_nil]; rfl
  | cons t rest => rw [chain_rightBracket (h t rfl), finished, if_neg (List.cons_ne_nil t rest)]

/-- The reader of expressions on the tokens of a sum. -/
theorem sum_tokens (p : Phrase .sum) (n : Nat) {rest : List Token} (h : Closes rest) :
    sum n (p.tokens ++ rest) = within (p.levels + 1) n (.ok (finished p.tree rest, rest)) := by
  obtain ⟨t, ts, htokens, ht⟩ := p.exists_tokens_eq_cons
  rw [sum_eq_opened, htokens, List.cons_append]
  simp only [sumWith_cons ht]
  rw [← List.cons_append, ← htokens, opened_eq_within,
    p.isHead (n - 1) 0 rest (Nat.zero_le _) (h.below _) h.goesOn, chain_of_closes h]
  exact within_within (by omega) _

end Reading

end Calculator
