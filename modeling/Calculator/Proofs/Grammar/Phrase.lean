import Calculator.Expr.Parser

/-!
# Phrases

The grammar of expressions has five layers:

    sum   ::= term  | sum (+ | -) term
    term  ::= power | term (* | /) power
    power ::= post  | power (^ | E) post
    post  ::= atom  | post !
    atom  ::= number | name | ( sum ) | call ( sum ) | (+ | -) atom

A `Phrase` is a derivation in this grammar. It tells the tokens that it derives, the tree that
these tokens stand for, and the levels that a reader has open at most while it reads them.

Results:
* `Phrase.exists_tokens_eq_cons`: the first token of a phrase can begin an operand.
* `Phrase.exists_loosened`: a phrase of a layer is a phrase of every looser layer.
* `Phrase.folds_le_levels`: every operator behind the first atom costs a level.
-/

namespace Calculator

/-! ## Layers -/

/-- The layers of the grammar, from the loosest to the tightest. -/
inductive Layer where
  | sum
  | term
  | power
  | post
  | atom
deriving DecidableEq, Repr

/-- The layer whose phrases an operator joins. -/
def Operator.layer : Operator → Layer
  | add => .sum
  | sub => .sum
  | mul => .term
  | div => .term
  | pow => .power
  | sci => .power

namespace Layer

/-- `outer.Joins inner`: the phrases of `outer` are made of phrases of `inner`. -/
inductive Joins : Layer → Layer → Prop where
  | terms : Joins sum term
  | powers : Joins term power
  | posts : Joins power post
  | atoms : Joins post atom

/-- How tightly the operators of a layer bind; an atom holds together like a call. -/
def binding : Layer → Nat
  | sum => Token.Kind.plus.binding
  | term => Token.Kind.slash.binding
  | power => Token.Kind.caret.binding
  | post => Token.Kind.bang.binding
  | atom => Token.Kind.call.binding

/-- The weakest binding that a chain of phrases of the layer takes up. -/
def least : Layer → Nat
  | sum => 0
  | term => sum.binding + 1
  | power => term.binding + 1
  | post => power.binding + 1
  | atom => post.binding + 1

theorem Joins.least_eq {outer inner : Layer} (h : outer.Joins inner) :
    inner.least = outer.binding + 1 := by
  cases h <;> rfl

theorem Joins.binding_lt {outer inner : Layer} (h : outer.Joins inner) :
    outer.binding < inner.binding := by
  cases h <;> decide

theorem sum_binding_le (l : Layer) : sum.binding ≤ l.binding := by
  cases l <;> decide

theorem binding_le_atom (l : Layer) : l.binding ≤ atom.binding := by
  cases l <;> decide

theorem eq_of_binding_eq {l m : Layer} (h : l.binding = m.binding) : l = m := by
  cases l <;> cases m <;> first | rfl | exact absurd h (by decide)

theorem eq_sum_or_joins (l : Layer) : l = sum ∨ ∃ outer : Layer, outer.Joins l := by
  cases l with
  | sum => exact Or.inl rfl
  | term => exact Or.inr ⟨sum, .terms⟩
  | power => exact Or.inr ⟨term, .powers⟩
  | post => exact Or.inr ⟨power, .posts⟩
  | atom => exact Or.inr ⟨post, .atoms⟩

/-- No layer lies between two that follow each other. -/
theorem Joins.binding_le_of_lt {outer inner l : Layer} (h : outer.Joins inner)
    (hl : l.binding < inner.binding) : l.binding ≤ outer.binding := by
  cases h <;> cases l <;> revert hl <;> decide

end Layer

theorem Operator.layer_binding_lt (op : Operator) :
    op.layer.binding < Token.Kind.bang.binding := by
  cases op <;> decide

theorem Token.Kind.binding_of_operator? {k : Token.Kind} {op : Operator}
    (h : k.operator? = some op) : k.binding = op.layer.binding := by
  cases k <;> cases h <;> rfl

theorem Token.Kind.isBinaryOperator_of_operator? {k : Token.Kind} {op : Operator}
    (h : k.operator? = some op) : k.isBinaryOperator := by
  rw [← k.isSome_operator?, h]
  rfl

theorem Token.Kind.sign_cases {k : Token.Kind} {op : Operator} (h : k.operator? = some op)
    (hop : op.layer = .sum) : k = .plus ∧ op = .add ∨ k = .minus ∧ op = .sub := by
  cases k <;> cases h <;> first
    | exact .inl ⟨rfl, rfl⟩
    | exact .inr ⟨rfl, rfl⟩
    | cases hop

theorem Token.Kind.startsOperand_of_sign {k : Token.Kind} {op : Operator}
    (h : k.operator? = some op) (hop : op.layer = .sum) : k.startsOperand := by
  rcases sign_cases h hop with ⟨rfl, _⟩ | ⟨rfl, _⟩ <;> rfl

/-! ## Derivations -/

/-- A derivation of some tokens from a layer of the grammar. -/
inductive Phrase : Layer → Type where
  | number (t : Token) (ht : t.kind = .number) : Phrase .atom
  | name (t : Token) (ht : t.kind = .ident) : Phrase .atom
  | bracketed (opening : Token) (inside : Phrase .sum) (closing : Token)
      (ho : opening.kind = .leftBracket) (hc : closing.kind = .rightBracket) : Phrase .atom
  | call (function opening : Token) (argument : Phrase .sum) (closing : Token)
      (hf : function.kind = .call) (ho : opening.kind = .leftBracket)
      (hc : closing.kind = .rightBracket) : Phrase .atom
  | signed (sign : Token) (op : Operator) (operand : Phrase .atom)
      (hs : sign.kind.operator? = some op) (hop : op.layer = .sum) : Phrase .atom
  | factorial (operand : Phrase .post) (bang : Token) (hb : bang.kind = .bang) : Phrase .post
  | joined {outer inner : Layer} (left : Phrase outer) (t : Token) (op : Operator)
      (right : Phrase inner) (h : outer.Joins inner) (ht : t.kind.operator? = some op)
      (hop : op.layer = outer) : Phrase outer
  /-- A phrase of a tighter layer that nothing is joined to. -/
  | single {outer inner : Layer} (h : outer.Joins inner) (p : Phrase inner) : Phrase outer

namespace Phrase

/-- The tokens that are derived. -/
@[simp] def tokens {l : Layer} : Phrase l → List Token
  | number t _ => [t]
  | name t _ => [t]
  | bracketed opening p closing _ _ => opening :: (p.tokens ++ [closing])
  | call function opening p closing _ _ _ => function :: opening :: (p.tokens ++ [closing])
  | signed sign _ p _ _ => sign :: p.tokens
  | factorial p bang _ => p.tokens ++ [bang]
  | joined left t _ right _ _ _ => left.tokens ++ t :: right.tokens
  | single _ p => p.tokens

/-- The tree that the tokens stand for. Operators associate to the left, brackets leave no trace,
and a sign is an operation on zero and its operand. -/
@[simp] def tree {l : Layer} : Phrase l → Expr
  | number t _ => .number (readNumeral t.text)
  | name t _ => .var t.text
  | bracketed _ p _ _ _ => p.tree
  | call function _ p _ _ _ _ => .call function.text p.tree
  | signed _ op p _ _ => .binary op (.number 0) p.tree
  | factorial p _ _ => .factorial p.tree
  | joined left _ op right _ _ _ => .binary op left.tree right.tree
  | single _ p => p.tree

/-- The number of operators, factorials among them, behind the first atom. -/
@[simp] def folds {l : Layer} : Phrase l → Nat
  | factorial p _ _ => p.folds + 1
  | joined left _ _ _ _ _ _ => left.folds + 1
  | single _ p => p.folds
  | _ => 0

/-- The levels that a reader has open at most, beyond those open where the phrase begins. The
operators behind the first atom keep their levels to the end, and a right operand is read on top
of them; the levels of an atom are given back when it has been read. -/
@[simp] def levels {l : Layer} : Phrase l → Nat
  | number _ _ => 0
  | name _ _ => 0
  | bracketed _ p _ _ _ => p.levels + 1
  | call _ _ p _ _ _ _ => p.levels + 1
  | signed _ _ p _ _ => p.levels + 1
  | factorial p _ _ => max p.levels (p.folds + 1)
  | joined left _ _ right _ _ _ => max left.levels (left.folds + 1 + right.levels)
  | single _ p => p.levels

variable {l : Layer}

theorem folds_le_levels (p : Phrase l) : p.folds ≤ p.levels := by
  induction p with
  | number => exact Nat.le_refl 0
  | name => exact Nat.le_refl 0
  | bracketed => exact Nat.zero_le _
  | call => exact Nat.zero_le _
  | signed => exact Nat.zero_le _
  | factorial p bang hb ih => exact Nat.le_max_right _ _
  | joined left t op right h ht hop ihl ihr =>
    have : left.folds + 1 ≤ left.folds + 1 + right.levels := Nat.le_add_right _ _
    exact Nat.le_trans this (Nat.le_max_right _ _)
  | single h p ih => exact ih

@[simp] theorem folds_atom (p : Phrase .atom) : p.folds = 0 := by
  cases p with
  | joined left t op right hj => cases hj
  | single hj => cases hj
  | _ => rfl

theorem exists_tokens_eq_cons (p : Phrase l) :
    ∃ t ts, p.tokens = t :: ts ∧ t.kind.startsOperand := by
  induction p with
  | number t ht => exact ⟨t, [], rfl, by rw [ht]; rfl⟩
  | name t ht => exact ⟨t, [], rfl, by rw [ht]; rfl⟩
  | bracketed opening p closing ho hc => exact ⟨opening, _, rfl, by rw [ho]; rfl⟩
  | call function opening p closing hf ho hc => exact ⟨function, _, rfl, by rw [hf]; rfl⟩
  | signed sign op p hs hop =>
    exact ⟨sign, _, rfl, Token.Kind.startsOperand_of_sign hs hop⟩
  | factorial p bang hb ih =>
    obtain ⟨t, ts, htokens, ht⟩ := ih
    exact ⟨t, ts ++ [bang], by simp [htokens], ht⟩
  | joined left t op right h ht hop ihl ihr =>
    obtain ⟨t', ts, htokens, ht'⟩ := ihl
    exact ⟨t', ts ++ t :: right.tokens, by simp [htokens], ht'⟩
  | single h p ih => exact ih

theorem length_tokens_pos (p : Phrase l) : 0 < p.tokens.length := by
  obtain ⟨t, ts, htokens, _⟩ := p.exists_tokens_eq_cons
  rw [htokens]
  exact Nat.succ_pos _

/-- A phrase is also a phrase of each looser layer, with the same tokens, the same tree and the
same levels. -/
theorem exists_loosened {loose tight : Layer} (h : loose.binding ≤ tight.binding)
    (p : Phrase tight) :
    ∃ q : Phrase loose, q.tokens = p.tokens ∧ q.tree = p.tree ∧ q.levels = p.levels ∧
      q.folds = p.folds := by
  induction hb : tight.binding using Nat.strongRecOn generalizing tight with
  | ind b ih =>
    rcases Nat.eq_or_lt_of_le h with heq | hlt
    · obtain rfl := Layer.eq_of_binding_eq heq
      exact ⟨p, rfl, rfl, rfl, rfl⟩
    · rcases tight.eq_sum_or_joins with rfl | ⟨outer, hjoins⟩
      · exact absurd hlt (Nat.not_lt_of_le loose.sum_binding_le)
      · have hb' : outer.binding < b := hb ▸ hjoins.binding_lt
        exact ih outer.binding hb' (hjoins.binding_le_of_lt hlt) (single hjoins p) rfl

end Phrase

end Calculator
