import Calculator.Proofs.Grammar.Parse
import Calculator.Proofs.Token.Split

/-!
# Reading the text of a tree

The text of a tree has a bracket around each operation, so it is an atom of the grammar, whatever
the operators in it. If the numbers in the tree are written as numerals that stand for them, and the
names as names, then the tree is read back from its text, unless its brackets, calls and operators
open more levels than there are.

* `Expr.Readable`: the trees whose numbers and names can be read back.
* `Expr.renderedLevels`: the levels that a reader has open inside the text of a tree.
* `Expr.Readable.isAtom`: the tokens of the text are those of an atom with the same tree.
* `Expr.parseAll_render`: what the text of a tree is read as.
-/

namespace Calculator

open Text

/-! ## The signs of a text -/

theorem Operator.exists_kind (op : Operator) :
    ∃ kind : Token.Kind, Token.Kind.ofChar? op.symbol = some kind ∧ kind.operator? = some op := by
  cases op with
  | add => exact ⟨.plus, rfl, rfl⟩
  | sub => exact ⟨.minus, rfl, rfl⟩
  | mul => exact ⟨.star, rfl, rfl⟩
  | div => exact ⟨.slash, rfl, rfl⟩
  | pow => exact ⟨.caret, rfl, rfl⟩
  | sci => exact ⟨.sci, rfl, rfl⟩

/-- The tokens of a text in brackets. -/
theorem tokenise_bracketed {functions : List String} {text inside : String} {ts : List Token}
    (h : tokenise functions inside = .ok ts)
    (htext : text.toList = '(' :: (inside.toList ++ [')'])) :
    tokenise functions text = .ok (⟨.leftBracket, "("⟩ :: (ts ++ [⟨.rightBracket, ")"⟩])) := by
  have hclosed := tokenise_of_sign (c := ')') (inside ++ ")") rfl h
    (tokenise_empty functions) String.toList_append
  refine tokenise_of_sign (c := '(') text rfl (tokenise_empty functions) hclosed ?_
  rw [htext, String.toList_append]
  rfl

namespace Expr

/-! ## Trees that can be read back -/

/-- The numbers of the tree are shown as numerals that stand for them; its names are names, those of
its variables are not among the functions, and those that it calls are. -/
def Readable (functions : List String) : Expr → Prop
  | number value =>
    IsNumeral (displayNumber value).toList ∧ readNumeral (displayNumber value) = value
  | var name => IsName name.toList ∧ name ∉ functions
  | binary _ lhs rhs => lhs.Readable functions ∧ rhs.Readable functions
  | factorial operand => operand.Readable functions
  | call function argument =>
    IsName function.toList ∧ function ∈ functions ∧ argument.Readable functions
  | builtin _ _ => False

/-- The levels that a reader has open at most inside the text of a tree, beyond those open where
the text begins: one for each bracket and call around a place, and one for the operator before
it. -/
@[simp] def renderedLevels : Expr → Nat
  | number _ => 0
  | var _ => 0
  | binary _ lhs rhs => 1 + max lhs.renderedLevels (1 + rhs.renderedLevels)
  | factorial operand => 1 + max operand.renderedLevels 1
  | call _ argument => 1 + argument.renderedLevels
  | builtin _ _ => 0

/-! ## Texts of atoms -/

/-- The text has the tokens of an atom with the tree `e`, inside which a reader has at most the
given number of levels open. -/
def IsAtom (functions : List String) (text : String) (e : Expr) (levels : Nat) : Prop :=
  ∃ p : Phrase .atom, tokenise functions text = .ok p.tokens ∧ p.tree = e ∧ p.levels = levels

section IsAtom

variable {functions : List String} {text left right : String} {e lhs rhs : Expr} {m n : Nat}

theorem isAtom_number (h : IsNumeral text.toList) :
    IsAtom functions text (.number (readNumeral text)) 0 :=
  ⟨.number ⟨.number, text⟩ rfl, tokenise_numeral functions h, rfl, rfl⟩

theorem isAtom_var (h : IsName text.toList) (hnot : text ∉ functions) :
    IsAtom functions text (.var text) 0 := by
  have htokens := tokenise_name functions h
  rw [if_neg hnot] at htokens
  exact ⟨.name ⟨.ident, text⟩ rfl, htokens, rfl, rfl⟩

theorem isAtom_bracketed {l : Layer} {inside : String} (p : Phrase l)
    (h : tokenise functions inside = .ok p.tokens)
    (htext : text.toList = '(' :: (inside.toList ++ [')'])) :
    IsAtom functions text p.tree (1 + p.levels) := by
  obtain ⟨q, hq, htree, hlevels, _⟩ := p.exists_loosened l.sum_binding_le
  refine ⟨.bracketed ⟨.leftBracket, "("⟩ q ⟨.rightBracket, ")"⟩ rfl rfl, ?_, htree, ?_⟩
  · simpa [hq] using tokenise_bracketed h htext
  · simp [hlevels, Nat.add_comm]

/-- A bracket opens a level, and the operator in it another one for its right operand. -/
theorem isAtom_binary (op : Operator) (hl : IsAtom functions left lhs m)
    (hr : IsAtom functions right rhs n) :
    IsAtom functions ("(" ++ left ++ op.symbol.toString ++ right ++ ")") (.binary op lhs rhs)
      (1 + max m (1 + n)) := by
  obtain ⟨l, hltokens, rfl, rfl⟩ := hl
  obtain ⟨r, hrtokens, rfl, rfl⟩ := hr
  obtain ⟨kind, hsign, hkind⟩ := op.exists_kind
  obtain ⟨inner, hjoins, _⟩ := op.exists_joins
  obtain ⟨l', hl', htl, hll, hfl⟩ := l.exists_loosened op.layer.binding_le_atom
  obtain ⟨r', hr', htr, hlr, _⟩ := r.exists_loosened inner.binding_le_atom
  have hinside := tokenise_of_sign (left ++ op.symbol.toString ++ right) hsign hltokens
    hrtokens (by simp)
  rw [← hl', ← hr'] at hinside
  have hatom : IsAtom functions ("(" ++ left ++ op.symbol.toString ++ right ++ ")") _ _ :=
    isAtom_bracketed (.joined l' ⟨kind, String.ofList [op.symbol]⟩ op r' hjoins hkind rfl)
      hinside (by simp)
  simpa [htl, htr, hll, hlr, hfl] using hatom

theorem isAtom_factorial (h : IsAtom functions text e n) :
    IsAtom functions ("(" ++ text ++ "!)") (.factorial e) (1 + max n 1) := by
  obtain ⟨p, htokens, rfl, rfl⟩ := h
  obtain ⟨p', hp', htp, hlp, hfp⟩ := p.exists_loosened Layer.post.binding_le_atom
  have hinside := tokenise_of_sign (c := '!') (text ++ "!") rfl htokens
    (tokenise_empty functions) String.toList_append
  rw [← hp'] at hinside
  have hatom : IsAtom functions ("(" ++ text ++ "!)") _ _ :=
    isAtom_bracketed (.factorial p' ⟨.bang, "!"⟩ rfl) hinside (by simp)
  simpa [htp, hlp, hfp] using hatom

theorem isAtom_call {function : String} (hname : IsName function.toList)
    (hmem : function ∈ functions) (h : IsAtom functions text e n) :
    IsAtom functions (function ++ "(" ++ text ++ ")") (.call function e) (1 + n) := by
  obtain ⟨p, htokens, rfl, rfl⟩ := h
  obtain ⟨q, hq, htq, hlq, _⟩ := p.exists_loosened Layer.atom.sum_binding_le
  have hfunction := tokenise_name functions hname
  rw [if_pos hmem] at hfunction
  have hclosed := tokenise_of_sign (c := ')') (text ++ ")") rfl htokens
    (tokenise_empty functions) String.toList_append
  refine ⟨.call ⟨.call, function⟩ ⟨.leftBracket, "("⟩ q ⟨.rightBracket, ")"⟩ rfl rfl rfl,
    ?_, ?_, ?_⟩
  · rw [Phrase.tokens, hq]
    exact tokenise_of_sign (c := '(') _ rfl hfunction hclosed (by simp)
  · rw [Phrase.tree, htq]
  · simp [hlq, Nat.add_comm]

theorem Readable.isAtom (h : e.Readable functions) :
    IsAtom functions e.render e e.renderedLevels := by
  induction e with
  | number value =>
    have hnumber : IsAtom functions _ _ 0 := isAtom_number h.1
    rwa [h.2] at hnumber
  | var name => exact isAtom_var h.1 h.2
  | binary op lhs rhs ihl ihr => exact isAtom_binary op (ihl h.1) (ihr h.2)
  | factorial operand ih => exact isAtom_factorial (ih h)
  | call function argument ih => exact isAtom_call h.1 h.2.1 (ih h.2.2)
  | builtin name function => exact h.elim

end IsAtom

/-! ## Reading the text back -/

/-- Calls within each other cost a level each. -/
theorem readable_iterate_call {functions : List String} {function : String}
    (hname : IsName function.toList) (hfunctions : function ∈ functions) {e : Expr}
    (he : e.Readable functions) (n : Nat) :
    (Nat.iterate (call function) n e).Readable functions ∧
      (Nat.iterate (call function) n e).renderedLevels = n + e.renderedLevels := by
  induction n generalizing e with
  | zero => exact ⟨he, (Nat.zero_add _).symm⟩
  | succ n ih =>
    obtain ⟨hreadable, hlevels⟩ := ih (e := call function e) ⟨hname, hfunctions, he⟩
    refine ⟨hreadable, hlevels.trans ?_⟩
    simp only [renderedLevels]
    omega

/-- The text of a tree is read as the tree with zero added to it, or it is nested too deeply. Which
of the two it is, the levels of its text tell. -/
theorem parseAll_render (functions : List String) (e : Expr) (h : e.Readable functions) :
    (do
      let tokens ← tokenise functions e.render
      parseAll tokens) =
        (if 1 + e.renderedLevels ≤ maxLevels then .ok (.binary .add e (.number 0))
        else .error .tooDeeplyNested) ∧
      Fault.tooDeeplyNested.kind = .grammar ∧
      Fault.tooDeeplyNested.message = "Expression too deeply nested" := by
  obtain ⟨p, htokens, htree, hlevels⟩ := h.isAtom
  refine ⟨?_, rfl, rfl⟩
  rw [htokens, Nat.add_comm, ← hlevels, ← htree]
  exact parseAll_atom p

/-- A tree with each kind of node that can be read back, and calls that are nested too deeply. -/
theorem parseAll_render_nested :
    (do
      let tokens ← tokenise ["f"] "((2.5!)*f(y))"
      parseAll tokens) =
        .ok (.binary .add (.binary .mul (.factorial (.number 2.5)) (.call "f" (.var "y")))
          (.number 0)) ∧
      (do
        let tokens ← tokenise ["f"] (Nat.iterate (call "f") 256 (.var "y")).render
        parseAll tokens) = .error .tooDeeplyNested := by
  have hf : IsName "f".toList ∧ IsName "y".toList ∧ "f" ∈ ["f"] ∧ "y" ∉ ["f"] := by decide
  have hy : (Expr.var "y").Readable ["f"] := ⟨hf.2.1, hf.2.2.2⟩
  have hshown : displayNumber 2.5 = "2.5" := by decide +kernel
  have hnumber : (Expr.number 2.5).Readable ["f"] := by
    rw [Readable, hshown]
    exact ⟨.decimal (s := ['2']) (t := ['5']) (by decide) (by decide), by decide +kernel⟩
  have htree := (parseAll_render ["f"]
    (.binary .mul (.factorial (.number 2.5)) (.call "f" (.var "y")))
    ⟨hnumber, hf.1, hf.2.2.1, hy⟩).1
  obtain ⟨hcalls, hlevels⟩ := readable_iterate_call hf.1 hf.2.2.1 hy 256
  have hdeep := (parseAll_render ["f"] _ hcalls).1
  rw [if_pos (by decide)] at htree
  rw [hlevels, if_neg (by decide)] at hdeep
  simp only [render, hshown] at htree
  exact ⟨htree, hdeep⟩

end Expr

end Calculator
