import Calculator.Proofs.Token.Split

/-!
# A lexer that is asked again and again

A lexer hands out the tokens of its text one by one. When it has no more, it answers that the text
has ended, or reports a fault; and from then on it gives this one answer, however often it is
asked. Blanks that it has skipped before the answer make no difference.

* `Lexer.next_next_of_isExhausted`: a lexer with no more tokens stays as it is.
* `Lexer.HandsOut`: the tokens that a lexer hands out, and what becomes of it.
* `Lexer.exists_handsOut`: every lexer comes to the end of its tokens.
* `Lexer.HandsOut.outcomes_eq`: what it answers to any number of calls.
* `outcomes_of_text`: so the answers are those that `tokenise` gives at once.
-/

namespace Calculator

namespace Lexer

variable {l l' l'' : Lexer} {ts : List Token} {t : Token}

/-! ## One call after another -/

/-- The answers to the first calls do not depend on how many more follow. -/
theorem outcomes_eq_take {j k : Nat} (h : j ≤ k) (l : Lexer) :
    outcomes j l = (outcomes k l).take j := by
  induction j generalizing k l with
  | zero => rfl
  | succ j ih =>
    obtain ⟨k, rfl⟩ : ∃ k', k = k' + 1 := ⟨k - 1, by omega⟩
    rw [outcomes, outcomes, List.take_succ_cons, ← ih (by omega)]

/-- The lexer has no more tokens to hand out. -/
def IsExhausted (l : Lexer) : Prop := ∀ t, l.next.1 ≠ .ok (some t)

/-- The blanks that stand before a fault, or before the end of the text, are skipped once. After
that, nothing changes. -/
theorem next_next_of_isExhausted (h : l.IsExhausted) : l.next.2.next = l.next := by
  obtain ⟨functions, rest⟩ := l
  have hdrop := Text.dropBlanks_dropBlanks rest
  simp only [IsExhausted, next] at h ⊢
  cases hrest : Text.dropBlanks rest with
  | nil => rfl
  | cons c r =>
    rw [hrest] at hdrop h
    cases hsplit : Token.split? functions (c :: r) with
    | none => simp only [hdrop, hsplit]
    | some found => exact absurd (by simp only [hsplit]) (h found.1)

theorem outcomes_of_isExhausted (h : l.IsExhausted) (calls : Nat) :
    outcomes calls l = List.replicate calls l.next.1 := by
  induction calls generalizing l with
  | zero => rfl
  | succ calls ih =>
    have hnext := next_next_of_isExhausted h
    have hstays : l.next.2.IsExhausted := by
      rwa [IsExhausted, hnext]
    rw [outcomes, ih hstays, hnext, List.replicate_succ]

/-- A lexer with no more tokens answers as `tokenise` would. -/
theorem remaining_of_isExhausted (h : l.IsExhausted) :
    l.remaining = l.next.1.map fun _ => [] := by
  match hnext : l.next with
  | (.error f, _) => exact remaining_of_error hnext
  | (.ok none, _) => exact remaining_of_end hnext
  | (.ok (some t), _) => exact absurd (congrArg Prod.fst hnext) (h t)

/-! ## All the tokens of a lexer -/

/-- The first lexer hands out the tokens in their order, and the second one is left. -/
inductive HandsOut : Lexer → List Token → Lexer → Prop
  | none (l : Lexer) : HandsOut l [] l
  | more {l l' l'' : Lexer} {t : Token} {ts : List Token} (hnext : l.next = (.ok (some t), l'))
      (hmore : HandsOut l' ts l'') : HandsOut l (t :: ts) l''

/-- Each token takes up some of the text, so that there is a last one. -/
theorem exists_handsOut (l : Lexer) : ∃ ts l', HandsOut l ts l' ∧ l'.IsExhausted := by
  match hnext : l.next with
  | (.ok (some t), l') =>
    obtain ⟨ts, l'', hts, hl''⟩ := exists_handsOut l'
    exact ⟨t :: ts, l'', .more hnext hts, hl''⟩
  | (.ok none, _) => exact ⟨[], l, .none l, fun t ht => by rw [hnext] at ht; cases ht⟩
  | (.error f, _) => exact ⟨[], l, .none l, fun t ht => by rw [hnext] at ht; cases ht⟩
termination_by l.rest.length
decreasing_by exact next_rest_length_lt hnext

theorem HandsOut.remaining_eq (h : HandsOut l ts l') :
    l.remaining = l'.remaining.map (ts ++ ·) := by
  induction h with
  | none l => cases l.remaining <;> rfl
  | @more l l' l'' t ts hnext _ ih =>
    rw [remaining_of_token hnext, ih]
    cases l''.remaining <;> rfl

/-- As many calls as there are tokens bring the tokens, and further ones are for the lexer that is
left. -/
theorem HandsOut.outcomes_add (h : HandsOut l ts l') (calls : Nat) :
    outcomes (ts.length + calls) l = ts.map (fun t => .ok (some t)) ++ outcomes calls l' := by
  induction h with
  | none l => simp
  | more hnext _ ih => simp [Nat.add_right_comm, outcomes, hnext, ih]

/-- First the tokens, and then one answer for ever. -/
theorem HandsOut.outcomes_eq (h : HandsOut l ts l') (hl' : l'.IsExhausted) (calls : Nat) :
    outcomes calls l = (ts.take calls).map (fun t => .ok (some t)) ++
      List.replicate (calls - ts.length) l'.next.1 := by
  rw [outcomes_eq_take (Nat.le_add_left calls ts.length), h.outcomes_add,
    outcomes_of_isExhausted hl', List.take_append, ← List.map_take, List.length_map,
    List.take_replicate, Nat.min_eq_left (Nat.sub_le _ _)]

end Lexer

/-! ## The tokens of a text, one by one -/

/-- The calls to one lexer bring the tokens of the text in their order, and then always the same
answer. If `tokenise` accepts the text, the tokens are the ones that it returns, and the last answer
is that the text has ended; otherwise the last answer is the fault that `tokenise` reports. -/
theorem outcomes_of_text (functions : List String) (text : String) :
    ∃ (tokens : List Token) (last : Except Fault (Option Token)),
      (∀ calls, Lexer.outcomes calls (Lexer.ofText functions text) =
        (tokens.take calls).map (fun t => .ok (some t)) ++
          List.replicate (calls - tokens.length) last) ∧
      ((tokenise functions text = .ok tokens ∧ last = .ok none) ∨
        ∃ f, tokenise functions text = .error f ∧ f.kind = .lexical ∧ last = .error f) := by
  obtain ⟨tokens, l, htokens, hl⟩ := Lexer.exists_handsOut (Lexer.ofText functions text)
  refine ⟨tokens, l.next.1, htokens.outcomes_eq hl, ?_⟩
  have htokenise : tokenise functions text = _ := htokens.remaining_eq
  rw [Lexer.remaining_of_isExhausted hl] at htokenise
  cases hlast : l.next.1 with
  | error f =>
    rw [hlast] at htokenise
    obtain ⟨_, _, _, _, rfl⟩ := tokenise_eq_error_iff.1 htokenise
    exact .inr ⟨_, htokenise, rfl, rfl⟩
  | ok t? =>
    cases t? with
    | some t => exact absurd hlast (hl t)
    | none =>
      rw [hlast] at htokenise
      exact .inl ⟨by simp [htokenise], rfl⟩

example : Lexer.outcomes 3 (Lexer.ofText [] "x  $") =
    [.ok (some ⟨.ident, "x"⟩), .error (.unknownToken "$"), .error (.unknownToken "$")] := by
  decide +kernel

end Calculator
