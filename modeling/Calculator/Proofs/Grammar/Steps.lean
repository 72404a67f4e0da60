import Calculator.Proofs.Grammar.Phrase

/-!
# One step of the reader

What `Reading.operand` and `Reading.chain` do with the next token, one equation for each kind of
token. The proofs about the reader rest on these equations alone.

Two parts of the reader get a name: `opened` reads inside one more level, and `tightened` reads
the operand of an operator together with the operators that take it away.
-/

namespace Calculator.Reading

/-- What is read with one level less, if there is a level left. -/
def opened (inside : Nat → Reading) : (levels : Nat) → Reading
  | 0 => .error .tooDeeplyNested
  | n + 1 => inside n

/-- An operand and the chain behind it. -/
def chained (n least : Nat) (ts : List Token) : Reading := do
  let (e, rest) ← operand n ts
  chain n e least rest

/-- The right operand of an operator, with the chain of the operators behind it that bind
tighter. -/
def tightened (n binding : Nat) (ts : List Token) : Reading := do
  let (right, rest) ← operand n ts
  if bindsTighter binding rest then chain n right (binding + 1) rest else .ok (right, rest)

theorem sumWith_cons {n : Nat} {t : Token} {ts : List Token} (h : t.kind.startsOperand) :
    sumWith (operand n) (chain n) (t :: ts) = chained n 0 (t :: ts) := by
  rw [sumWith, if_pos h]
  rfl

theorem sum_eq_opened (n : Nat) (ts : List Token) :
    sum n ts = opened (fun k => sumWith (operand k) (chain k) ts) n := by
  cases n <;> rfl

theorem tightened_bind (n binding : Nat) (ts : List Token) (k : Expr × List Token → Reading) :
    tightened n binding ts >>= k = (do
      let (right, rest) ← operand n ts
      let (right, rest) ←
        if bindsTighter binding rest then chain n right (binding + 1) rest else .ok (right, rest)
      k (right, rest)) := by
  rw [tightened]
  cases operand n ts with
  | error f => rfl
  | ok x => by_cases hx : bindsTighter binding x.2 <;> simp [hx]

/-! ## The next token -/

section Tokens

variable {n least : Nat} {left : Expr}

@[simp] theorem operand_nil : operand n [] = .error .missingOperand := by
  rw [operand.eq_def]

@[simp] theorem chain_nil :
    chain n left least [] =
      .ok (if least = 0 then .binary .add left (.number 0) else left, []) := by
  rw [chain.eq_def]

theorem operand_cons (t : Token) (rest : List Token) :
    operand n (t :: rest) =
      match t.kind with
      | .number => .ok (.number (readNumeral t.text), rest)
      | .ident => .ok (.var t.text, rest)
      | .leftBracket => opened (fun k => closed (sumWith (operand k) (chain k) rest)) n
      | .call =>
        match rest with
        | [] => .error (.invalidCall t.text)
        | bracket :: inner =>
          if bracket.kind = .leftBracket ∧ 2 ≤ inner.length then
            opened (fun k =>
              mapExpr (.call t.text) (closed (sumWith (operand k) (chain k) inner))) n
          else .error (.invalidCall t.text)
      | .plus => opened (fun k => mapExpr (.binary .add (.number 0)) (operand k rest)) n
      | .minus => opened (fun k => mapExpr (.binary .sub (.number 0)) (operand k rest)) n
      | _ => .error (.unexpectedOperand t.text) := by
  rw [operand.eq_def]
  cases n <;> rfl

theorem chain_cons (t : Token) (rest : List Token) :
    chain n left least (t :: rest) =
      if t.kind = .rightBracket then .ok (left, t :: rest)
      else if t.kind = .bang then opened (fun k => chain k (.factorial left) least rest) n
      else
        match t.kind.operator? with
        | none => .error (.expectedOperator t.text)
        | some op =>
          if t.kind.binding < least then .ok (left, t :: rest)
          else opened (fun k => do
            let (right, rest) ← tightened k t.kind.binding rest
            chain k (.binary op left right) least rest) n := by
  rw [chain.eq_def]
  cases n with
  | zero => rfl
  | succ k => simp only [tightened_bind]; rfl

end Tokens

/-! ## An operand, by the kind of its first token -/

section Operand

variable {n : Nat} {t : Token} {rest : List Token}

theorem operand_number (h : t.kind = .number) :
    operand n (t :: rest) = .ok (.number (readNumeral t.text), rest) := by
  rw [operand_cons, h]

theorem operand_name (h : t.kind = .ident) : operand n (t :: rest) = .ok (.var t.text, rest) := by
  rw [operand_cons, h]

theorem operand_bracket (h : t.kind = .leftBracket) :
    operand n (t :: rest) =
      opened (fun k => closed (sumWith (operand k) (chain k) rest)) n := by
  rw [operand_cons, h]

theorem operand_call {bracket : Token} {inner : List Token} (h : t.kind = .call)
    (hb : bracket.kind = .leftBracket) (hi : 2 ≤ inner.length) :
    operand n (t :: bracket :: inner) =
      opened (fun k => mapExpr (.call t.text) (closed (sumWith (operand k) (chain k) inner)))
        n := by
  rw [operand_cons, h]
  exact if_pos ⟨hb, hi⟩

theorem operand_call_nil (h : t.kind = .call) :
    operand n [t] = .error (.invalidCall t.text) := by
  rw [operand_cons, h]

theorem operand_call_of_not {bracket : Token} {inner : List Token} (h : t.kind = .call)
    (hn : ¬(bracket.kind = .leftBracket ∧ 2 ≤ inner.length)) :
    operand n (t :: bracket :: inner) = .error (.invalidCall t.text) := by
  rw [operand_cons, h]
  exact if_neg hn

theorem operand_sign {op : Operator} (h : t.kind.operator? = some op) (hop : op.layer = .sum) :
    operand n (t :: rest) =
      opened (fun k => mapExpr (.binary op (.number 0)) (operand k rest)) n := by
  rw [operand_cons]
  rcases Token.Kind.sign_cases h hop with ⟨hk, rfl⟩ | ⟨hk, rfl⟩ <;> rw [hk]

theorem operand_other (h : t.kind.startsOperand = false) :
    operand n (t :: rest) = .error (.unexpectedOperand t.text) := by
  rw [operand_cons]
  generalize t.kind = k at h
  cases k <;> first | rfl | cases h

end Operand

/-! ## A chain, by the kind of its first token -/

section Chain

variable {n least : Nat} {left : Expr} {t : Token} {rest : List Token}

theorem chain_rightBracket (h : t.kind = .rightBracket) :
    chain n left least (t :: rest) = .ok (left, t :: rest) := by
  rw [chain_cons, if_pos h]

theorem chain_bang (h : t.kind = .bang) :
    chain n left least (t :: rest) =
      opened (fun k => chain k (.factorial left) least rest) n := by
  rw [chain_cons, h]
  rfl

theorem chain_other (hr : t.kind ≠ .rightBracket) (hb : t.kind ≠ .bang)
    (h : t.kind.operator? = none) :
    chain n left least (t :: rest) = .error (.expectedOperator t.text) := by
  rw [chain_cons, if_neg hr, if_neg hb, h]

/-- An operator is neither a bracket nor a factorial. -/
theorem chain_of_operator {op : Operator} (h : t.kind.operator? = some op) :
    chain n left least (t :: rest) =
      if t.kind.binding < least then .ok (left, t :: rest)
      else opened (fun k => do
        let (right, rest) ← tightened k t.kind.binding rest
        chain k (.binary op left right) least rest) n := by
  have hr : t.kind ≠ .rightBracket := fun hk => by rw [hk] at h; cases h
  have hb : t.kind ≠ .bang := fun hk => by rw [hk] at h; cases h
  rw [chain_cons, if_neg hr, if_neg hb, h]

theorem chain_weaker {op : Operator} (h : t.kind.operator? = some op)
    (hw : t.kind.binding < least) : chain n left least (t :: rest) = .ok (left, t :: rest) := by
  rw [chain_of_operator h, if_pos hw]

theorem chain_operator {op : Operator} (h : t.kind.operator? = some op)
    (hw : ¬t.kind.binding < least) :
    chain n left least (t :: rest) =
      opened (fun k => do
        let (right, rest) ← tightened k t.kind.binding rest
        chain k (.binary op left right) least rest) n := by
  rw [chain_of_operator h, if_neg hw]

end Chain

end Calculator.Reading
