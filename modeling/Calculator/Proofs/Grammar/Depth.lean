import Calculator.Proofs.Grammar.Height

/-!
# When a nesting is too deep

A phrase is its first atom with some folds behind it: a factorial, or an operator with its right
operand. The folds keep their levels until the phrase ends, so that the right operand of the third
fold is read three levels up; the levels of the first atom have been given back by then. Whether an
expression is nested too deeply is decided by this count alone.

Results:
* `Outline.chain`: the count, from the levels of the first atom and the counts of the operands.
* `Phrase.chain_eq_levels`: it is the number of levels that a reader has open at most.
* `Expr.parse_eq_tooDeeplyNested_iff`: the expressions that are nested too deeply.
-/

namespace Calculator

/-- What a phrase costs to read, by its parts. -/
structure Outline where
  /-- The levels of the first atom. -/
  atom : Nat
  /-- The chains of the right operands of the folds behind the first atom, the innermost fold first.
  A factorial has no right operand, and zero stands for it. -/
  operands : List Nat

namespace Outline

/-- The levels that the phrase has open at most: those of its first atom, or, for the `j`-th of its
folds, `j` and the chain of its right operand. -/
def chain (o : Outline) : Nat :=
  (o.operands.mapIdx fun i operand => (i + 1) + operand).foldl max o.atom

theorem chain_concat (atom : Nat) (operands : List Nat) (operand : Nat) :
    chain ⟨atom, operands ++ [operand]⟩ =
      max (chain ⟨atom, operands⟩) (operands.length + 1 + operand) := by
  unfold chain
  rw [List.mapIdx_concat, List.foldl_append]
  rfl

end Outline

namespace Phrase

variable {l : Layer}

/-- The outline of a phrase. A bracket and a call cost a level on top of the chain inside, and a
sign one on top of the atom that it stands before. -/
@[simp] def outline {l : Layer} : Phrase l → Outline
  | number _ _ => ⟨0, []⟩
  | name _ _ => ⟨0, []⟩
  | bracketed _ p _ _ _ => ⟨1 + p.outline.chain, []⟩
  | call _ _ p _ _ _ _ => ⟨1 + p.outline.chain, []⟩
  | signed _ _ p _ _ => ⟨1 + p.outline.atom, []⟩
  | factorial p _ _ => ⟨p.outline.atom, p.outline.operands ++ [0]⟩
  | joined left _ _ right _ _ _ =>
    ⟨left.outline.atom, left.outline.operands ++ [right.outline.chain]⟩
  | single _ p => p.outline

/-- The levels that the phrase has open at most, beyond the one of the expression itself. -/
def chain (p : Phrase l) : Nat := p.outline.chain

@[simp] theorem length_operands_outline (p : Phrase l) :
    p.outline.operands.length = p.folds := by
  induction p with
  | number | name | bracketed | call | signed => rfl
  | factorial _ _ _ ih | joined _ _ _ _ _ _ _ ih => simp [ih]
  | single _ p ih => exact ih

/-- An atom has no folds behind it. -/
theorem chain_atom (p : Phrase .atom) : p.chain = p.outline.atom := by
  have hoperands : p.outline.operands = [] := by
    rw [← List.length_eq_zero_iff, length_operands_outline, folds_atom]
  unfold chain Outline.chain
  rw [hoperands]
  rfl

theorem chain_eq_levels (p : Phrase l) : p.chain = p.levels := by
  induction p with
  | number | name => rfl
  | bracketed opening p closing _ _ ih => rw [levels, ← ih, Nat.add_comm]; rfl
  | call function opening p closing _ _ _ ih => rw [levels, ← ih, Nat.add_comm]; rfl
  | signed sign op p _ _ ih => rw [levels, ← ih, p.chain_atom, Nat.add_comm]; rfl
  | factorial p bang _ ih =>
    rw [levels, ← ih, ← length_operands_outline]
    exact Outline.chain_concat _ _ _
  | joined left t op right _ _ _ ihl ihr =>
    rw [levels, ← ihl, ← ihr, ← length_operands_outline]
    exact Outline.chain_concat _ _ _
  | single _ p ih => exact ih

end Phrase

namespace Expr

/-- Where a sum stands, up to the end of the tokens or to a closing bracket, it is nested too deeply
exactly if it needs more than 256 levels, its own one counted. -/
theorem parse_eq_tooDeeplyNested_iff {tokens : List Token} {start next : Nat} (p : Phrase .sum)
    (h : p.Spans tokens start next) :
    (parse tokens start = .error .tooDeeplyNested ↔ 256 < 1 + p.chain) ∧
      Fault.tooDeeplyNested.message = "Expression too deeply nested" := by
  refine ⟨?_, rfl⟩
  rw [parse_of_spans h, p.chain_eq_levels, maxLevels]
  split
  · next hle =>
    have hnot : ¬256 < 1 + p.levels := by omega
    simp [hnot]
  · next hgt =>
    have hlt : 256 < 1 + p.levels := by omega
    simp [hlt]

/-- Calls in the arguments of calls, each argument with as many factorials behind it as there are
levels left, go as deep as they may, and then one level deeper. -/
theorem parse_eq_tooDeeplyNested_tall :
    ((Phrase.tall 255).Spans (Phrase.tall 255).tokens 0 (Phrase.tall 255).tokens.length ∧
      (Phrase.tall 256).Spans (Phrase.tall 256).tokens 0 (Phrase.tall 256).tokens.length) ∧
      parse (Phrase.tall 255).tokens 0 ≠ .error .tooDeeplyNested ∧
      parse (Phrase.tall 256).tokens 0 = .error .tooDeeplyNested := by
  have hchain : ∀ n, (Phrase.tall n).chain = n := fun n => by
    rw [Phrase.chain_eq_levels, Phrase.levels_tall]
  have hspans : ∀ n, (Phrase.tall n).Spans (Phrase.tall n).tokens 0 (Phrase.tall n).tokens.length :=
    fun n => Phrase.spans_tokens _
  refine ⟨⟨hspans 255, hspans 256⟩, ?_, ?_⟩
  · rw [ne_eq, (parse_eq_tooDeeplyNested_iff _ (hspans 255)).1, hchain]
    decide
  · rw [(parse_eq_tooDeeplyNested_iff _ (hspans 256)).1, hchain]
    decide

end Expr

end Calculator
