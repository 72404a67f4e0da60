import Calculator.Proofs.Grammar.Parse

/-!
# The height of a tree that was read

The levels of a reader are not the height of the tree it builds. A sign, a bracket or a call
gives its level back when its operand has been read, and the operators behind it begin again at
the level where it stood, although in the tree they stand above it. With `n` levels an atom may
so be `1 + (1 + 2 + ⋯ + n)` nodes high: a call leaves `n - 1` levels to its argument, which spends
them all on an atom and then once more on `n - 1` factorials.

Results:
* `Phrase.height_tree`: the height of the tree of a phrase, by what stands on what.
* `Phrase.stack_lt_triangle`: the height that the levels of a phrase allow.
* `Phrase.stack_tall`: a phrase for each number of levels that reaches this height.
* `Expr.height_le_maxLevels_iff`: the height that no tree exceeds, and when the trees read at a
  position are no higher than there are levels.
-/

namespace Calculator

/-- The number of nodes on the longest path from the root of a tree to a leaf. -/
@[simp] def Expr.height : Expr → Nat
  | number _ => 1
  | var _ => 1
  | binary _ lhs rhs => max lhs.height rhs.height + 1
  | factorial operand => operand.height + 1
  | call _ argument => argument.height + 1
  | builtin _ _ => 1

/-- The sum of the numbers up to `n`. -/
@[simp] def triangle : Nat → Nat
  | 0 => 0
  | n + 1 => triangle n + (n + 1)

theorem two_mul_triangle (n : Nat) : 2 * triangle n = n * (n + 1) := by
  induction n with
  | zero => rfl
  | succ n ih =>
    rw [triangle, Nat.mul_add, ih, ← Nat.add_mul, Nat.mul_comm, Nat.add_comm n 2]

theorem triangle_maxLevels : triangle maxLevels = 32896 := by
  have h := two_mul_triangle maxLevels
  rw [show maxLevels * (maxLevels + 1) = 2 * 32896 from rfl] at h
  exact Nat.eq_of_mul_eq_mul_left (by decide) h

namespace Phrase

variable {l : Layer}

/-- The nodes that the tree of the phrase has above the lowest of its leaves. What an operand has
is kept under the operators, the sign or the call that stands on it; a bracket adds nothing. -/
@[simp] def stack {l : Layer} : Phrase l → Nat
  | number _ _ => 0
  | name _ _ => 0
  | bracketed _ p _ _ _ => p.stack
  | call _ _ p _ _ _ _ => p.stack + 1
  | signed _ _ p _ _ => p.stack + 1
  | factorial p _ _ => p.stack + 1
  | joined left _ _ right _ _ _ => max left.stack right.stack + 1
  | single _ p => p.stack

@[simp] theorem height_tree (p : Phrase l) : p.tree.height = p.stack + 1 := by
  induction p with
  | number | name => rfl
  | bracketed _ p _ _ _ ih | single _ p ih => exact ih
  | call _ _ p _ _ _ _ ih | factorial p _ _ ih => simp [ih]
  | signed sign op p hs hop ih => simp [ih]
  | joined left t op right hj ht hop ihl ihr => simp [ihl, ihr]

/-! ## The bound -/

/-- The operators behind the first atom cost a level each, so that a bound on what they stand on is
a bound for the next number of levels. -/
theorem stack_lt_of_le_add_folds {p : Phrase l} {n : Nat} (hlevels : p.levels ≤ n)
    (hstack : p.stack ≤ triangle n + p.folds) : p.stack < triangle (n + 1) := by
  have hfolds := p.folds_le_levels
  simp only [triangle]
  omega

/-- The operators behind the first atom stand on an atom that the levels bound by themselves. -/
theorem stack_le_add_folds (p : Phrase l) :
    ∀ {n}, p.levels ≤ n → p.stack ≤ triangle n + p.folds := by
  induction p with
  | number t ht => exact fun _ => Nat.zero_le _
  | name t ht => exact fun _ => Nat.zero_le _
  | bracketed opening p closing ho hc ih =>
    intro n hn
    rw [levels] at hn
    obtain ⟨k, rfl⟩ : ∃ k, n = k + 1 := ⟨n - 1, by omega⟩
    have hk := Nat.le_of_succ_le_succ hn
    have hlt := stack_lt_of_le_add_folds hk (ih hk)
    exact Nat.le_of_lt hlt
  | call function opening p closing hf ho hc ih =>
    intro n hn
    rw [levels] at hn
    obtain ⟨k, rfl⟩ : ∃ k, n = k + 1 := ⟨n - 1, by omega⟩
    have hk := Nat.le_of_succ_le_succ hn
    exact stack_lt_of_le_add_folds hk (ih hk)
  | signed sign op p hs hop ih =>
    intro n hn
    rw [levels] at hn
    obtain ⟨k, rfl⟩ : ∃ k, n = k + 1 := ⟨n - 1, by omega⟩
    have hk := Nat.le_of_succ_le_succ hn
    exact stack_lt_of_le_add_folds hk (ih hk)
  | factorial p bang hb ih =>
    intro n hn
    have hp := ih (Nat.le_trans (Nat.le_max_left _ _) hn)
    rw [stack, folds]
    omega
  | joined left t op right hj ht hop ihl ihr =>
    intro n hn
    rw [levels] at hn
    obtain ⟨k, rfl⟩ : ∃ k, n = k + 1 := ⟨n - 1, by omega⟩
    have hl := ihl (Nat.le_trans (Nat.le_max_left _ _) hn)
    -- the right operand is left at least one level less, which pays for its own operators
    have hk : right.levels ≤ k := by omega
    have hr := stack_lt_of_le_add_folds hk (ihr hk)
    rw [stack, folds]
    omega
  | single hj p ih => exact ih

/-- With `n` levels, beyond the one of the expression itself, a tree is at most as high as the
sum of the numbers up to `n + 1`. -/
theorem stack_lt_triangle (p : Phrase l) {n : Nat} (h : p.levels ≤ n) :
    p.stack < triangle (n + 1) :=
  stack_lt_of_le_add_folds h (p.stack_le_add_folds h)

/-! ## Phrases that reach it -/

/-- A phrase with some factorials behind it. -/
def withFactorials (p : Phrase .post) : Nat → Phrase .post
  | 0 => p
  | k + 1 => factorial (p.withFactorials k) ⟨.bang, "!"⟩ rfl

/-- An atom with some factorials behind it, as a sum. -/
def factorials (p : Phrase .atom) (k : Nat) : Phrase .sum :=
  single .terms (single .powers (single .posts ((single .atoms p).withFactorials k)))

/-- The highest atom for a number of levels: calls within each other, the argument of each with as
many factorials behind it as there are levels left. -/
def tallAtom : Nat → Phrase .atom
  | 0 => number ⟨.number, "1"⟩ rfl
  | n + 1 =>
    call ⟨.call, "f"⟩ ⟨.leftBracket, "("⟩ ((tallAtom n).factorials n) ⟨.rightBracket, ")"⟩
      rfl rfl rfl

/-- The highest sum for a number of levels beyond its own. -/
def tall (n : Nat) : Phrase .sum := (tallAtom n).factorials n

@[simp] theorem tokens_withFactorials (p : Phrase .post) (k : Nat) :
    (p.withFactorials k).tokens = p.tokens ++ List.replicate k ⟨.bang, "!"⟩ := by
  induction k with
  | zero => exact (List.append_nil _).symm
  | succ k ih => simp [withFactorials, ih, List.replicate_succ']

@[simp] theorem folds_withFactorials (p : Phrase .post) (k : Nat) :
    (p.withFactorials k).folds = p.folds + k := by
  induction k with
  | zero => rfl
  | succ k ih => simp [withFactorials, ih, Nat.add_assoc]

@[simp] theorem levels_withFactorials (p : Phrase .post) (k : Nat) :
    (p.withFactorials k).levels = max p.levels (p.folds + k) := by
  induction k with
  | zero => exact (Nat.max_eq_left p.folds_le_levels).symm
  | succ k ih =>
    simp only [withFactorials, levels, ih, folds_withFactorials]
    omega

@[simp] theorem stack_withFactorials (p : Phrase .post) (k : Nat) :
    (p.withFactorials k).stack = p.stack + k := by
  induction k with
  | zero => rfl
  | succ k ih => simp [withFactorials, ih, Nat.add_assoc]

@[simp] theorem tokens_factorials (p : Phrase .atom) (k : Nat) :
    (p.factorials k).tokens = p.tokens ++ List.replicate k ⟨.bang, "!"⟩ := by
  simp [factorials]

@[simp] theorem levels_factorials (p : Phrase .atom) (k : Nat) :
    (p.factorials k).levels = max p.levels k := by
  simp [factorials]

@[simp] theorem stack_factorials (p : Phrase .atom) (k : Nat) :
    (p.factorials k).stack = p.stack + k := by
  simp [factorials]

@[simp] theorem levels_tallAtom (n : Nat) : (tallAtom n).levels = n := by
  induction n with
  | zero => rfl
  | succ n ih => simp [tallAtom, ih]

@[simp] theorem stack_tallAtom (n : Nat) : (tallAtom n).stack = triangle n := by
  induction n with
  | zero => rfl
  | succ n ih => simp [tallAtom, ih, Nat.add_assoc]

@[simp] theorem levels_tall (n : Nat) : (tall n).levels = n := by
  simp [tall]

theorem stack_tall (n : Nat) : (tall n).stack + 1 = triangle (n + 1) := by
  simp [tall, Nat.add_assoc]

/-- A number with some minus signs before it. -/
def negated : Nat → Phrase .atom
  | 0 => number ⟨.number, "1"⟩ rfl
  | n + 1 => signed ⟨.minus, "-"⟩ .sub (negated n) rfl rfl

@[simp] theorem tokens_negated (n : Nat) :
    (negated n).tokens = List.replicate n ⟨.minus, "-"⟩ ++ [⟨.number, "1"⟩] := by
  induction n with
  | zero => rfl
  | succ n ih => simp [negated, ih, List.replicate_succ]

@[simp] theorem levels_negated (n : Nat) : (negated n).levels = n := by
  induction n with
  | zero => rfl
  | succ n ih => exact congrArg (· + 1) ih

@[simp] theorem stack_negated (n : Nat) : (negated n).stack = n := by
  induction n with
  | zero => rfl
  | succ n ih => exact congrArg (· + 1) ih

end Phrase

/-! ## The trees of a reader -/

namespace Expr

/-- The zero that is added at the end of the tokens left aside, no tree that is read is higher than
the sum of the numbers up to `maxLevels`, and this height is reached. The trees read at a position
are no higher than `maxLevels` itself if and only if each sum that stands there, and that has
levels enough, stacks up fewer nodes than that on the lowest of its leaves. -/
theorem height_le_maxLevels_iff (tokens : List Token) (start : Nat) :
    (∀ (e : Expr) next, parse tokens start = .ok (e.upTo tokens next, next) →
      e.height ≤ 32896) ∧
    (∃ (tallest : List Token) (e : Expr),
      parse tallest 0 = .ok (e.upTo tallest tallest.length, tallest.length) ∧
      e.height = 32896) ∧
    ((∀ (e : Expr) next, parse tokens start = .ok (e.upTo tokens next, next) →
        e.height ≤ maxLevels) ↔
      ∀ (p : Phrase .sum) next, p.Spans tokens start next → p.levels < maxLevels →
        p.stack < maxLevels) := by
  refine ⟨?_, ?_, ?_, ?_⟩
  · intro e next hparse
    obtain ⟨p, _, hlevels, rfl⟩ := parse_eq_ok_iff.1 hparse
    rw [p.height_tree, ← triangle_maxLevels]
    exact p.stack_lt_triangle (Nat.le_of_lt_succ hlevels)
  · have hlevels : (Phrase.tall 255).levels < maxLevels := by
      rw [Phrase.levels_tall]
      decide
    refine ⟨_, _, parse_eq_ok_iff.2 ⟨Phrase.tall 255, Phrase.spans_tokens _, hlevels, rfl⟩, ?_⟩
    rw [Phrase.height_tree, Phrase.stack_tall]
    exact triangle_maxLevels
  · intro h p next hspans hlevels
    have hheight := h p.tree next (parse_eq_ok_iff.2 ⟨p, hspans, hlevels, rfl⟩)
    rw [p.height_tree] at hheight
    exact hheight
  · intro h e next hparse
    obtain ⟨p, hspans, hlevels, rfl⟩ := parse_eq_ok_iff.1 hparse
    rw [p.height_tree]
    exact h p next hspans hlevels

/-- As many signs as there are levels beyond the first, and a factorial on top of them all. -/
theorem exists_parse_height_gt_maxLevels :
    ∃ e : Expr,
      let tokens := List.replicate 255 ⟨.minus, "-"⟩ ++ [⟨.number, "1"⟩, ⟨.bang, "!"⟩]
      parse tokens 0 = .ok (e.upTo tokens 257, 257) ∧ maxLevels < e.height := by
  have hlevels : ((Phrase.negated 255).factorials 1).levels < maxLevels := by
    rw [Phrase.levels_factorials, Phrase.levels_negated]
    decide
  have htokens : ((Phrase.negated 255).factorials 1).tokens =
      List.replicate 255 ⟨.minus, "-"⟩ ++ [⟨.number, "1"⟩, ⟨.bang, "!"⟩] := by
    rw [Phrase.tokens_factorials, Phrase.tokens_negated, List.append_assoc]
    rfl
  have hlength : ((Phrase.negated 255).factorials 1).tokens.length = 257 := by
    rw [htokens, List.length_append, List.length_replicate]
    rfl
  have hspans := Phrase.spans_tokens ((Phrase.negated 255).factorials 1)
  rw [hlength, htokens] at hspans
  refine ⟨((Phrase.negated 255).factorials 1).tree, ?_, ?_⟩
  · exact parse_eq_ok_iff.2 ⟨_, hspans, hlevels, rfl⟩
  · rw [Phrase.height_tree, Phrase.stack_factorials, Phrase.stack_negated]
    decide

end Expr

end Calculator
