import Calculator.Proofs.Text.Run
import Calculator.Token.Lexer
import Mathlib.Data.List.Chain

/-!
# Pieces of a text

A text is made of blanks, numerals, names and signs, one after the other. Two numerals, or two
names, never stand side by side: they would be read as one. Only ASCII characters occur in
pieces, so nothing here depends on whether the characters of a text are its bytes.

A piece is the longest at a place if no piece that the text there begins with is longer. Reading
off the longest piece again and again divides a text in one way only, up to its end or to a
character with which no piece begins (`Munches`).

Results:
* `Piece.longest_of_head`, `Piece.longest_of_parted`: pieces that are not continued by what follows.
* `Piece.eq_of_longest`: there is at most one longest piece at a place.
* `exists_munches`: every text is divided up to its end or to an unknown character.
* `IsSplit.munches`, `Munches.isSplit`: a split is a division of the whole text.
* `Munches.length_le`: no split before an unknown character reaches further than the division.
-/

namespace Calculator

open Text

/-- The characters that are tokens by themselves, with their kinds. -/
def Token.Kind.signs : List (Char × Token.Kind) :=
  [('(', .leftBracket), (')', .rightBracket), ('+', .plus), ('-', .minus), ('*', .star),
    ('/', .slash), ('!', .bang), ('^', .caret), ('E', .sci)]

theorem Token.Kind.ofChar?_eq_some_iff {c : Char} {k : Token.Kind} :
    ofChar? c = some k ↔ (c, k) ∈ signs := by
  constructor
  · intro h
    unfold ofChar? at h
    split at h <;> cases h <;> decide
  · intro h
    simp only [signs, List.mem_cons, Prod.mk.injEq, List.not_mem_nil, or_false] at h
    rcases h with ⟨rfl, rfl⟩ | ⟨rfl, rfl⟩ | ⟨rfl, rfl⟩ | ⟨rfl, rfl⟩ | ⟨rfl, rfl⟩ | ⟨rfl, rfl⟩ |
      ⟨rfl, rfl⟩ | ⟨rfl, rfl⟩ | ⟨rfl, rfl⟩ <;> rfl

/-! ## Pieces -/

/-- A part of a text. -/
inductive Piece where
  | blank (c : Char) (h : isBlank c)
  | numeral (s : List Char) (h : IsNumeral s)
  | name (s : List Char) (h : IsName s)
  | sign (c : Char) (kind : Token.Kind) (h : (c, kind) ∈ Token.Kind.signs)

/-- The four sorts of pieces. -/
inductive Piece.Category where
  | blank
  | numeral
  | name
  | sign
deriving DecidableEq, Repr

namespace Piece

/-- The sort of the pieces that begin with a character. -/
def Category.ofChar? (c : Char) : Option Category :=
  if isBlank c then some blank
  else if isDigit c then some numeral
  else if isLetter c then some name
  else if c ∈ Token.Kind.signs.map Prod.fst then some sign
  else none

/-- The characters of a piece. -/
def text : Piece → List Char
  | blank c _ => [c]
  | numeral s _ => s
  | name s _ => s
  | sign c _ _ => [c]

def category : Piece → Category
  | blank _ _ => .blank
  | numeral _ _ => .numeral
  | name _ _ => .name
  | sign _ _ _ => .sign

/-- The token that a piece stands for; a blank stands for none. -/
def token? (functions : List String) : Piece → Option Token
  | blank _ _ => none
  | numeral s _ => some ⟨.number, String.ofList s⟩
  | name s _ => some ⟨if String.ofList s ∈ functions then .call else .ident, String.ofList s⟩
  | sign c kind _ => some ⟨kind, String.ofList [c]⟩

/-- Two pieces can stand side by side unless both are numerals or both are names. -/
def Parted (p q : Piece) : Prop :=
  p.category = q.category → p.category = .blank ∨ p.category = .sign

@[simp] theorem Category.ofChar?_of_isBlank {c : Char} (h : isBlank c) :
    ofChar? c = some blank :=
  if_pos h

@[simp] theorem Category.ofChar?_of_isDigit {c : Char} (h : isDigit c) :
    ofChar? c = some numeral := by
  simp [ofChar?, h]

@[simp] theorem Category.ofChar?_of_isLetter {c : Char} (h : isLetter c) :
    ofChar? c = some name := by
  simp [ofChar?, h]

theorem Category.ofChar?_of_mem_signs {c : Char} {k : Token.Kind} (h : (c, k) ∈ Token.Kind.signs) :
    ofChar? c = some sign := by
  have hall : ∀ s ∈ Token.Kind.signs, ofChar? s.1 = some sign := by decide
  exact hall _ h

/-- A character that begins no blank is none. -/
theorem Category.isBlank_eq_false {c : Char} (h : ofChar? c ≠ some blank) : isBlank c = false :=
  Bool.eq_false_iff.2 fun hblank => h (ofChar?_of_isBlank hblank)

theorem text_ne_nil (p : Piece) : p.text ≠ [] := by
  cases p with
  | blank c h => exact List.cons_ne_nil _ _
  | numeral s h => exact h.ne_nil
  | name s h => exact h.1
  | sign c k h => exact List.cons_ne_nil _ _

theorem length_text_of_category {p : Piece} (h : p.category = .blank ∨ p.category = .sign) :
    p.text.length = 1 := by
  cases p with
  | blank | sign => rfl
  | numeral | name => rcases h with h | h <;> cases h

/-- The characters of a piece are of its sort, but for the point of a numeral. -/
theorem category_of_mem {p : Piece} {c : Char} (h : c ∈ p.text) :
    Category.ofChar? c = some p.category ∨ (c = '.' ∧ p.category = .numeral) := by
  cases p with
  | blank d hd =>
    cases List.mem_singleton.1 h
    exact Or.inl (Category.ofChar?_of_isBlank hd)
  | numeral s hs =>
    rcases hs.isDigit_of_mem h with hc | hc
    · exact Or.inl (Category.ofChar?_of_isDigit hc)
    · exact Or.inr ⟨hc, rfl⟩
  | name s hs => exact Or.inl (Category.ofChar?_of_isLetter (hs.2 c h))
  | sign d k hd =>
    cases List.mem_singleton.1 h
    exact Or.inl (Category.ofChar?_of_mem_signs hd)

theorem category_of_text_eq_cons {p : Piece} {c : Char} {s : List Char} (h : p.text = c :: s) :
    Category.ofChar? c = some p.category := by
  cases p with
  | numeral t ht =>
    change t = c :: s at h
    exact Category.ofChar?_of_isDigit (IsNumeral.isDigit_head (h ▸ ht))
  | blank d hd =>
    cases h
    exact Category.ofChar?_of_isBlank hd
  | name t ht =>
    change t = c :: s at h
    exact Category.ofChar?_of_isLetter (ht.2 c (h ▸ List.mem_cons_self))
  | sign d k hd =>
    cases h
    exact Category.ofChar?_of_mem_signs hd

/-- The characters determine the piece. -/
theorem eq_of_text_eq {p q : Piece} (h : p.text = q.text) : p = q := by
  obtain ⟨c, s, hp⟩ := List.exists_cons_of_ne_nil p.text_ne_nil
  have hcategory : p.category = q.category := by
    have hq := category_of_text_eq_cons (h ▸ hp)
    rw [category_of_text_eq_cons hp, Option.some.injEq] at hq
    exact hq
  cases p with
  | blank c hc =>
    cases q with
    | blank d hd =>
      cases h
      rfl
    | numeral | name | sign => cases hcategory
  | numeral s hs =>
    cases q with
    | numeral t ht =>
      cases h
      rfl
    | blank | name | sign => cases hcategory
  | name s hs =>
    cases q with
    | name t ht =>
      cases h
      rfl
    | blank | numeral | sign => cases hcategory
  | sign c k hk =>
    cases q with
    | sign d l hl =>
      -- the texts tell the characters only, and the kinds follow from these
      cases h
      rw [← Token.Kind.ofChar?_eq_some_iff] at hk hl
      have hkind : k = l := by rwa [hk, Option.some.injEq] at hl
      subst hkind
      rfl
    | blank | numeral | name => cases hcategory

/-! ## The longest piece -/

/-- No piece that begins where `p` does is longer, when `rest` follows `p`. -/
def Longest (p : Piece) (rest : List Char) : Prop :=
  ∀ q : Piece, q.text <+: p.text ++ rest → q.text.length ≤ p.text.length

theorem eq_of_longest {p q : Piece} {r s : List Char} (hp : p.Longest r) (hq : q.Longest s)
    (h : p.text ++ r = q.text ++ s) : p = q ∧ r = s := by
  have hpq : p.text <+: q.text ++ s := ⟨r, h⟩
  have hqp : q.text <+: p.text ++ r := ⟨s, h.symm⟩
  have hprefix : p.text <+: q.text :=
    List.prefix_of_prefix_length_le hpq (List.prefix_append _ _) (hq p hpq)
  have htext : p.text = q.text := hprefix.eq_of_length_le (hp q hqp)
  rw [htext, List.append_cancel_left_eq] at h
  exact ⟨eq_of_text_eq htext, h⟩

/-- A piece is not continued by a character of another sort, unless it is a numeral and the
character a point; blanks and signs are not continued at all. -/
theorem longest_of_head {p : Piece} {rest : List Char}
    (h : ∀ c ∈ rest.head?, (Category.ofChar? c = some p.category →
      p.category = .blank ∨ p.category = .sign) ∧ (c = '.' → p.category ≠ .numeral)) :
    p.Longest rest := by
  intro q hq
  by_contra hlength
  obtain ⟨c, u, hu, hhead⟩ := exists_eq_append_cons hq (Nat.lt_of_not_le hlength)
  have hcategory : q.category = p.category := by
    obtain ⟨a, s, hp⟩ := List.exists_cons_of_ne_nil p.text_ne_nil
    have hq' := category_of_text_eq_cons (p := q) (c := a) (s := s ++ c :: u) (by rw [hu, hp]; rfl)
    rw [category_of_text_eq_cons hp, Option.some.injEq] at hq'
    exact hq'.symm
  -- so `c` is of the sort of `p`, or it is a point and `p` a numeral
  have hmem : c ∈ q.text := hu ▸ List.mem_append_right _ List.mem_cons_self
  obtain ⟨hsort, hpoint⟩ := h c hhead
  have hone : p.category = .blank ∨ p.category = .sign := by
    rcases category_of_mem hmem with hc | ⟨hc, hnumeral⟩
    · exact hsort (hcategory ▸ hc)
    · exact absurd (hcategory ▸ hnumeral) (hpoint hc)
  rw [← hcategory] at hone
  rw [length_text_of_category hone] at hlength
  exact hlength (List.length_pos_iff.2 p.text_ne_nil)

theorem longest_nil (p : Piece) : p.Longest [] := longest_of_head (by rintro _ ⟨⟩)

theorem longest_of_parted {p q : Piece} (h : p.Parted q) (rest : List Char) :
    p.Longest (q.text ++ rest) := by
  obtain ⟨c, s, hq⟩ := List.exists_cons_of_ne_nil q.text_ne_nil
  have hc := category_of_text_eq_cons hq
  apply longest_of_head
  rw [hq]
  rintro _ ⟨⟩
  refine ⟨?_, ?_⟩
  · intro hp
    rw [hc, Option.some.injEq] at hp
    exact h hp.symm
  · rintro rfl
    cases hc

/-- A numeral before a numeral, or a name before a name, could take up a character more. -/
theorem parted_of_longest {p q : Piece} {rest : List Char} (h : p.Longest (q.text ++ rest)) :
    p.Parted q := by
  have hlonger : ∀ r : Piece, ∀ c s, q.text = c :: s → r.text ≠ p.text ++ [c] := by
    intro r c s hq hr
    have hprefix : r.text <+: p.text ++ (q.text ++ rest) := by
      rw [hr, hq]
      exact ⟨s ++ rest, by simp⟩
    have := h r hprefix
    rw [hr, List.length_append] at this
    exact absurd this (Nat.not_succ_le_self _)
  intro hcategory
  cases p with
  | blank => exact Or.inl rfl
  | sign => exact Or.inr rfl
  | numeral s hs =>
    cases q with
    | numeral t ht =>
      obtain ⟨c, u, rfl⟩ := List.exists_cons_of_ne_nil ht.ne_nil
      exact absurd rfl (hlonger (numeral _ (hs.concat ht.isDigit_head)) c u rfl)
    | blank | name | sign => cases hcategory
  | name s hs =>
    cases q with
    | name t ht =>
      obtain ⟨c, u, rfl⟩ := List.exists_cons_of_ne_nil ht.1
      exact absurd rfl (hlonger (name _ (hs.concat (ht.2 c List.mem_cons_self))) c u rfl)
    | blank | numeral | sign => cases hcategory

end Piece

/-! ## The longest piece at a place -/

namespace Token

/-- The numeral that is split off a text is the longest that the text begins with. -/
theorem splitNumeral_longest {c : Char} (hc : isDigit c) (s : List Char) :
    IsNumeral (splitNumeral (c :: s)).1 ∧
      (splitNumeral (c :: s)).1 ++ (splitNumeral (c :: s)).2 = c :: s ∧
      ∀ t, IsNumeral t → t <+: c :: s → t.length ≤ (splitNumeral (c :: s)).1.length := by
  have hwhole := isDigits_takeWhile (takeWhile_ne_nil hc s)
  have hsplit := List.takeWhile_append_dropWhile (p := isDigit) (l := c :: s)
  rw [splitNumeral]
  split
  · next d rest hdrop =>
    split
    · next hd =>
      refine ⟨.decimal hwhole (isDigits_takeWhile (takeWhile_ne_nil hd rest)), ?_, ?_⟩
      · rw [List.append_assoc, List.cons_append, List.takeWhile_append_dropWhile, ← hdrop, hsplit]
      · intro t ht hprefix
        rw [List.length_append, List.length_cons]
        rcases ht.length_le_or hprefix with hlength | ⟨e, u, hdrop', _, hlength⟩
        · omega
        · rw [hdrop, List.cons.injEq] at hdrop'
          rw [← hdrop'.2] at hlength
          omega
    · next hd =>
      refine ⟨.whole hwhole, by rw [← hdrop, hsplit], ?_⟩
      intro t ht hprefix
      rcases ht.length_le_or hprefix with hlength | ⟨e, u, hdrop', he, _⟩
      · exact hlength
      · rw [hdrop, List.cons.injEq, List.cons.injEq] at hdrop'
        exact absurd (hdrop'.2.1 ▸ he) hd
  · next hnot =>
    refine ⟨.whole hwhole, hsplit, ?_⟩
    intro t ht hprefix
    rcases ht.length_le_or hprefix with hlength | ⟨e, u, hdrop, _, _⟩
    · exact hlength
    · exact absurd hdrop (hnot e u)

end Token

namespace Piece

theorem category_of_prefix {p : Piece} {c : Char} {s : List Char} (h : p.text <+: c :: s) :
    Category.ofChar? c = some p.category := by
  obtain ⟨d, u, hp⟩ := List.exists_cons_of_ne_nil p.text_ne_nil
  have hd := category_of_text_eq_cons hp
  rw [hp, List.cons_prefix_cons] at h
  rwa [h.1] at hd

theorem exists_numeral_longest {c : Char} (hc : isDigit c) (s : List Char) :
    ∃ h, (numeral (Token.splitNumeral (c :: s)).1 h).Longest (Token.splitNumeral (c :: s)).2 := by
  obtain ⟨hnumeral, hsplit, hlongest⟩ := Token.splitNumeral_longest hc s
  refine ⟨hnumeral, ?_⟩
  intro q hq
  change q.text <+: (Token.splitNumeral (c :: s)).1 ++ (Token.splitNumeral (c :: s)).2 at hq
  rw [hsplit] at hq
  have hcategory := category_of_prefix hq
  rw [Category.ofChar?_of_isDigit hc, Option.some.injEq] at hcategory
  cases q with
  | numeral t ht => exact hlongest t ht hq
  | blank | name | sign => cases hcategory

theorem exists_name_longest {c : Char} (hc : isLetter c) (s : List Char) :
    ∃ h, (name ((c :: s).takeWhile isLetter) h).Longest ((c :: s).dropWhile isLetter) := by
  refine ⟨isName_takeWhile (takeWhile_ne_nil hc s), ?_⟩
  intro q hq
  change q.text <+: (c :: s).takeWhile isLetter ++ (c :: s).dropWhile isLetter at hq
  rw [List.takeWhile_append_dropWhile] at hq
  have hcategory := category_of_prefix hq
  rw [Category.ofChar?_of_isLetter hc, Option.some.injEq] at hcategory
  cases q with
  | name t ht => exact length_le_takeWhile ht.2 hq
  | blank | numeral | sign => cases hcategory

/-- Where any piece begins, one is the longest. -/
theorem exists_longest {c : Char} (h : Category.ofChar? c ≠ none) (s : List Char) :
    ∃ p rest, c :: s = text p ++ rest ∧ p.Longest rest := by
  by_cases hblank : isBlank c
  · refine ⟨blank c hblank, s, rfl, longest_of_head ?_⟩
    exact fun _ _ => ⟨fun _ => Or.inl rfl, fun _ hcategory => by cases hcategory⟩
  by_cases hdigit : isDigit c
  · obtain ⟨hnumeral, hlongest⟩ := exists_numeral_longest hdigit s
    exact ⟨_, _, (Token.splitNumeral_longest hdigit s).2.1.symm, hlongest⟩
  by_cases hletter : isLetter c
  · obtain ⟨hname, hlongest⟩ := exists_name_longest hletter s
    exact ⟨_, _, List.takeWhile_append_dropWhile.symm, hlongest⟩
  by_cases hsign : c ∈ Token.Kind.signs.map Prod.fst
  · obtain ⟨⟨d, k⟩, hmem, rfl⟩ := List.mem_map.1 hsign
    refine ⟨sign d k hmem, s, rfl, longest_of_head ?_⟩
    exact fun _ _ => ⟨fun _ => Or.inr rfl, fun _ hcategory => by cases hcategory⟩
  · exact absurd (by simp only [Category.ofChar?, hblank, hdigit, hletter, hsign]; rfl) h

end Piece

/-! ## Dividing a text -/

/-- The text can be divided into the pieces: one after the other they are the text, and neither
two numerals nor two names are neighbours. -/
structure IsSplit (s : List Char) (pieces : List Piece) : Prop where
  text_eq : pieces.flatMap Piece.text = s
  parted : pieces.IsChain Piece.Parted

/-- The text begins with no piece: it is at its end, or at an unknown character. -/
def Stuck (s : List Char) : Prop := ∀ c ∈ s.head?, Piece.Category.ofChar? c = none

/-- Reading off longest pieces leads from the text to `rest`, which is its end. -/
inductive Munches : List Char → List Piece → List Char → Prop where
  | done (rest : List Char) : Munches rest [] rest
  | step {p : Piece} {s rest : List Char} {pieces : List Piece} (hp : p.Longest s)
      (hs : Munches s pieces rest) : Munches (p.text ++ s) (p :: pieces) rest

theorem stuck_nil : Stuck [] := by
  rintro _ ⟨⟩

theorem stuck_cons {c : Char} (h : Piece.Category.ofChar? c = none) (s : List Char) :
    Stuck (c :: s) := by
  rintro _ ⟨⟩
  exact h

theorem isSplit_nil : IsSplit [] [] := ⟨rfl, .nil⟩

theorem isSplit_singleton (p : Piece) : IsSplit p.text [p] :=
  ⟨List.append_nil _, List.isChain_singleton _⟩

theorem isSplit_cons_iff {s : List Char} {p : Piece} {pieces : List Piece} :
    IsSplit s (p :: pieces) ↔
      ∃ rest, s = p.text ++ rest ∧ IsSplit rest pieces ∧ ∀ q ∈ pieces.head?, p.Parted q := by
  constructor
  · rintro ⟨rfl, hparted⟩
    rw [List.isChain_cons] at hparted
    exact ⟨_, List.flatMap_cons, ⟨rfl, hparted.2⟩, hparted.1⟩
  · rintro ⟨rest, rfl, ⟨rfl, hparted⟩, hhead⟩
    exact ⟨List.flatMap_cons, List.isChain_cons.2 ⟨hhead, hparted⟩⟩

/-- A sign can stand between any two texts. -/
theorem IsSplit.append_sign {s s' : List Char} {pieces pieces' : List Piece} {c : Char}
    {kind : Token.Kind} (h : IsSplit s pieces) (hsign : (c, kind) ∈ Token.Kind.signs)
    (h' : IsSplit s' pieces') :
    IsSplit (s ++ c :: s') (pieces ++ .sign c kind hsign :: pieces') := by
  have hbehind : (Piece.sign c kind hsign :: pieces').IsChain Piece.Parted :=
    List.isChain_cons.2 ⟨fun _ _ _ => Or.inr rfl, h'.parted⟩
  refine ⟨?_, h.parted.append hbehind ?_⟩
  · simp [h.text_eq, h'.text_eq, Piece.text]
  · rintro p _ _ ⟨⟩ hcategory
    exact Or.inr hcategory

theorem Stuck.ne_append {s : List Char} (h : Stuck s) (p : Piece) (rest : List Char) :
    s ≠ p.text ++ rest := by
  rintro rfl
  obtain ⟨c, u, hp⟩ := List.exists_cons_of_ne_nil p.text_ne_nil
  have hnone := h c (by rw [hp]; rfl)
  rw [Piece.category_of_text_eq_cons hp] at hnone
  cases hnone

theorem exists_munches (s : List Char) : ∃ pieces rest, Munches s pieces rest ∧ Stuck rest := by
  induction hn : s.length using Nat.strongRecOn generalizing s with
  | ind n ih =>
    by_cases hstuck : Stuck s
    · exact ⟨[], s, .done s, hstuck⟩
    · cases s with
      | nil => exact absurd stuck_nil hstuck
      | cons c s =>
        have hc : Piece.Category.ofChar? c ≠ none := fun hnone => hstuck (stuck_cons hnone s)
        obtain ⟨p, rest, heq, hlongest⟩ := Piece.exists_longest hc s
        have hlength : rest.length < n := by
          have := List.length_pos_iff.2 p.text_ne_nil
          rw [← hn, heq, List.length_append]
          omega
        obtain ⟨pieces, rest', hmunches, hrest'⟩ := ih rest.length hlength rest rfl
        exact ⟨p :: pieces, rest', heq ▸ .step hlongest hmunches, hrest'⟩

theorem Munches.text_eq {s rest : List Char} {pieces : List Piece} (h : Munches s pieces rest) :
    s = pieces.flatMap Piece.text ++ rest := by
  induction h with
  | done rest => rfl
  | step hp hs ih => rw [List.flatMap_cons, List.append_assoc, ← ih]

theorem Munches.isSplit {s rest : List Char} {pieces : List Piece} (h : Munches s pieces rest) :
    IsSplit (pieces.flatMap Piece.text) pieces := by
  induction h with
  | done rest => exact isSplit_nil
  | @step p s rest pieces hp hs ih =>
    refine isSplit_cons_iff.2 ⟨_, List.flatMap_cons, ih, ?_⟩
    intro q hq
    cases hs with
    | done => cases hq
    | step hq' hs' =>
      cases hq
      exact Piece.parted_of_longest hp

/-- Only the last piece of a split can be continued by what follows the split. -/
theorem IsSplit.longest_or_eq_nil {s : List Char} {p : Piece} {pieces : List Piece}
    (h : IsSplit s pieces) (hhead : ∀ q ∈ pieces.head?, p.Parted q) (rest : List Char) :
    p.Longest (s ++ rest) ∨ s = [] := by
  cases pieces with
  | nil => exact Or.inr h.text_eq.symm
  | cons q pieces =>
    rw [← h.text_eq, List.flatMap_cons, List.append_assoc]
    exact Or.inl (Piece.longest_of_parted (hhead q rfl) _)

/-- In a split every piece is the longest at its place. -/
theorem IsSplit.munches {s : List Char} {pieces : List Piece} (h : IsSplit s pieces) :
    Munches s pieces [] := by
  induction pieces generalizing s with
  | nil => exact h.text_eq ▸ .done []
  | cons p pieces ih =>
    obtain ⟨rest, rfl, hrest, hhead⟩ := isSplit_cons_iff.1 h
    refine .step ?_ (ih hrest)
    rcases hrest.longest_or_eq_nil hhead [] with hlongest | rfl
    · rwa [List.append_nil] at hlongest
    · exact p.longest_nil

/-- A text is divided in one way only. -/
theorem Munches.unique {s rest rest' : List Char} {pieces pieces' : List Piece}
    (h : Munches s pieces rest) (hrest : Stuck rest) (h' : Munches s pieces' rest')
    (hrest' : Stuck rest') : pieces = pieces' ∧ rest = rest' := by
  induction h generalizing pieces' with
  | done rest =>
    cases h' with
    | done => exact ⟨rfl, rfl⟩
    | step hp hs => exact absurd rfl (hrest.ne_append _ _)
  | @step p s rest pieces hp hs ih =>
    generalize heq : p.text ++ s = t at h'
    cases h' with
    | done => exact absurd heq.symm (hrest'.ne_append _ _)
    | step hq hs' =>
      obtain ⟨rfl, rfl⟩ := Piece.eq_of_longest hp hq heq
      obtain ⟨rfl, rfl⟩ := ih hrest hs'
      exact ⟨rfl, rfl⟩

/-- What can be split at the beginning of a text lies within what is read off it. -/
theorem Munches.length_le {s rest front rest' : List Char} {pieces pieces' : List Piece}
    (h : Munches s pieces rest) (hrest : Stuck rest) (h' : IsSplit front pieces')
    (hs : s = front ++ rest') : rest.length ≤ rest'.length := by
  induction h generalizing front pieces' with
  | done rest =>
    cases pieces' with
    | nil =>
      rw [hs, ← h'.text_eq]
      exact Nat.le_refl _
    | cons q pieces' =>
      obtain ⟨front', rfl, _, _⟩ := isSplit_cons_iff.1 h'
      rw [List.append_assoc] at hs
      exact absurd hs (hrest.ne_append _ _)
  | @step p s rest pieces hp hmunches ih =>
    have hle : rest.length ≤ s.length := by
      rw [hmunches.text_eq, List.length_append]
      exact Nat.le_add_left _ _
    cases pieces' with
    | nil =>
      rw [← h'.text_eq, List.flatMap_nil, List.nil_append] at hs
      rw [← hs, List.length_append]
      omega
    | cons q pieces' =>
      obtain ⟨front', rfl, hfront', hhead⟩ := isSplit_cons_iff.1 h'
      rw [List.append_assoc] at hs
      rcases hfront'.longest_or_eq_nil hhead rest' with hq | rfl
      · obtain ⟨rfl, rfl⟩ := Piece.eq_of_longest hp hq hs
        exact ih hrest hfront' rfl
      · have hlength := hp q (hs ▸ List.prefix_append _ _)
        have := congrArg List.length hs
        simp only [List.length_append, List.length_nil] at this
        omega

end Calculator
