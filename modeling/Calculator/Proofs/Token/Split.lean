import Calculator.Proofs.Token.Piece

/-!
# The tokens of a text are its pieces

The lexer reads off the longest piece at a place, whatever follows it, and passes over the blanks.
So a text has tokens if and only if it can be split into pieces; the split is then the only one,
and the tokens are its pieces other than blanks. Any other text is refused with what is left of it
behind the longest part that can be split.

Results:
* `Token.split?_of_longest`: the lexer takes the longest piece.
* `Munches.remaining_eq`: what the lexer makes of a text that was divided.
* `tokenise_of_isSplit`: the tokens of a text that can be split.
* `tokenise_isSplit`: when a text has tokens, which they are, and where it is refused otherwise.
-/

namespace Calculator

open Text

namespace Token

variable {functions : List String}

@[simp] theorem Kind.ofName_eq (functions : List String) (name : String) :
    Kind.ofName functions name = if name ∈ functions then .call else .ident := by
  simp only [Kind.ofName, List.contains_iff_mem]

theorem split?_of_isDigit {c : Char} (h : isDigit c) (s : List Char) :
    split? functions (c :: s) =
      some (⟨.number, String.ofList (splitNumeral (c :: s)).1⟩, (splitNumeral (c :: s)).2) := by
  simp only [split?, h, if_true]

theorem split?_of_isLetter {c : Char} (h : isLetter c) (s : List Char) :
    split? functions (c :: s) =
      some (⟨.ofName functions (String.ofList ((c :: s).takeWhile isLetter)),
        String.ofList ((c :: s).takeWhile isLetter)⟩, (c :: s).dropWhile isLetter) := by
  simp only [split?, isDigit_of_isLetter h, h, if_true]
  rfl

theorem split?_of_mem_signs {c : Char} {k : Kind} (h : (c, k) ∈ Kind.signs) (s : List Char) :
    split? functions (c :: s) = some (⟨k, String.ofList [c]⟩, s) := by
  have hsigns : ∀ s ∈ Kind.signs, isDigit s.1 = false ∧ isLetter s.1 = false := by decide
  obtain ⟨hdigit, hletter⟩ := hsigns _ h
  simp only [split?, hdigit, hletter, Kind.ofChar?_eq_some_iff.2 h, Option.map_some]
  rfl

/-- The lexer takes the longest piece, if it is no blank. -/
theorem split?_of_longest {p : Piece} {rest : List Char} (h : p.Longest rest)
    (hp : p.category ≠ .blank) :
    split? functions (p.text ++ rest) = (p.token? functions).map (·, rest) := by
  cases p with
  | blank c hc => exact absurd rfl hp
  | numeral s hs =>
    obtain ⟨c, u, rfl⟩ := List.exists_cons_of_ne_nil hs.ne_nil
    obtain ⟨hnumeral, hlongest⟩ := Piece.exists_numeral_longest hs.isDigit_head (u ++ rest)
    have hsplit := (splitNumeral_longest hs.isDigit_head (u ++ rest)).2.1
    obtain ⟨hpiece, hrest⟩ := Piece.eq_of_longest hlongest h hsplit
    have htext : (splitNumeral (c :: (u ++ rest))).1 = c :: u := congrArg Piece.text hpiece
    rw [Piece.text, List.cons_append, split?_of_isDigit hs.isDigit_head, htext, hrest]
    rfl
  | name s hs =>
    obtain ⟨c, u, rfl⟩ := List.exists_cons_of_ne_nil hs.1
    have hc : isLetter c := hs.2 c List.mem_cons_self
    obtain ⟨hname, hlongest⟩ := Piece.exists_name_longest hc (u ++ rest)
    obtain ⟨hpiece, hrest⟩ :=
      Piece.eq_of_longest hlongest h List.takeWhile_append_dropWhile
    have htext : (c :: (u ++ rest)).takeWhile isLetter = c :: u := congrArg Piece.text hpiece
    rw [Piece.text, List.cons_append, split?_of_isLetter hc, htext, hrest, Kind.ofName_eq]
    rfl
  | sign c k hk => exact split?_of_mem_signs hk rest

/-- No token begins where no piece does. -/
theorem split?_of_ofChar?_eq_none {c : Char} (h : Piece.Category.ofChar? c = none)
    (s : List Char) : split? functions (c :: s) = none := by
  have hdigit : isDigit c = false := Bool.eq_false_iff.2 fun hdigit => by simp [hdigit] at h
  have hletter : isLetter c = false := Bool.eq_false_iff.2 fun hletter => by simp [hletter] at h
  have hkind : Kind.ofChar? c = none := by
    cases hk : Kind.ofChar? c with
    | none => rfl
    | some k =>
      rw [Piece.Category.ofChar?_of_mem_signs (Kind.ofChar?_eq_some_iff.1 hk)] at h
      cases h
  simp only [split?, hdigit, hletter, hkind, Option.map_none]
  rfl

end Token

/-! ## The lexer on a text that was divided -/

namespace Lexer

variable {functions : List String}

theorem remaining_congr {l l' : Lexer} (h : l.next = l'.next) : l.remaining = l'.remaining := by
  match hnext : l.next with
  | (.error f, _) => rw [remaining_of_error hnext, remaining_of_error (h ▸ hnext)]
  | (.ok none, _) => rw [remaining_of_end hnext, remaining_of_end (h ▸ hnext)]
  | (.ok (some t), after) =>
    exact (remaining_of_token hnext).trans (remaining_of_token (h ▸ hnext)).symm

/-- A blank at the beginning makes no difference. -/
theorem next_of_isBlank {c : Char} (h : isBlank c) (s : List Char) :
    (Lexer.mk functions (c :: s)).next = (Lexer.mk functions s).next := by
  have hdrop : dropBlanks (c :: s) = dropBlanks s := List.dropWhile_cons_of_pos h
  unfold next
  simp only [hdrop]

theorem next_of_longest {p : Piece} {rest : List Char} {t : Token} (h : p.Longest rest)
    (ht : p.token? functions = some t) :
    (Lexer.mk functions (p.text ++ rest)).next = (.ok (some t), ⟨functions, rest⟩) := by
  have hp : p.category ≠ .blank := by
    cases p with
    | blank => cases ht
    | numeral | name | sign => exact fun h => by cases h
  obtain ⟨c, s, htext⟩ := List.exists_cons_of_ne_nil p.text_ne_nil
  have hc : isBlank c = false := by
    refine Piece.Category.isBlank_eq_false fun hblank => hp ?_
    rwa [Piece.category_of_text_eq_cons htext, Option.some.injEq] at hblank
  have hsplit : Token.split? functions (p.text ++ rest) = _ := Token.split?_of_longest h hp
  rw [ht, htext, List.cons_append, Option.map_some] at hsplit
  rw [htext, List.cons_append, next]
  simp only [dropBlanks_of_head hc, hsplit]

/-- A piece at the beginning of the text is the next token, if it stands for one. -/
theorem remaining_append {p : Piece} {rest : List Char} (h : p.Longest rest) :
    (Lexer.mk functions (p.text ++ rest)).remaining =
      (Lexer.mk functions rest).remaining.map ((p.token? functions).toList ++ ·) := by
  cases ht : p.token? functions with
  | none =>
    cases p with
    | blank c hc =>
      refine (remaining_congr (next_of_isBlank hc rest)).trans ?_
      cases (Lexer.mk functions rest).remaining <;> rfl
    | numeral | name | sign => cases ht
  | some t => exact remaining_of_token (next_of_longest h ht)

@[simp] theorem remaining_nil : (Lexer.mk functions []).remaining = .ok [] := remaining_of_end rfl

theorem remaining_of_ofChar?_eq_none {c : Char} (h : Piece.Category.ofChar? c = none)
    (s : List Char) :
    (Lexer.mk functions (c :: s)).remaining =
      .error (.unknownToken (String.ofList (c :: s))) := by
  have hc : isBlank c = false := Piece.Category.isBlank_eq_false (by simp [h])
  have hnext : (Lexer.mk functions (c :: s)).next =
      (.error (.unknownToken (String.ofList (c :: s))), ⟨functions, c :: s⟩) := by
    rw [next]
    simp only [dropBlanks_of_head hc, Token.split?_of_ofChar?_eq_none h]
  exact remaining_of_error hnext

end Lexer

/-- The tokens of a text that was divided are those of the pieces, and those of the rest. -/
theorem Munches.remaining_eq (functions : List String) {s rest : List Char} {pieces : List Piece}
    (h : Munches s pieces rest) :
    (Lexer.mk functions s).remaining =
      (Lexer.mk functions rest).remaining.map (pieces.filterMap (Piece.token? functions) ++ ·) := by
  induction h with
  | done rest => cases (Lexer.mk functions rest).remaining <;> rfl
  | @step p s rest pieces hp hs ih =>
    rw [Lexer.remaining_append hp, ih]
    cases (Lexer.mk functions rest).remaining with
    | error f => rfl
    | ok ts =>
      rw [List.filterMap_cons]
      cases p.token? functions <;> rfl

/-! ## The tokens of a text -/

theorem tokenise_of_isSplit (functions : List String) {text : String} {pieces : List Piece}
    (h : IsSplit text.toList pieces) :
    tokenise functions text = .ok (pieces.filterMap (Piece.token? functions)) := by
  have hremaining := h.munches.remaining_eq functions
  rw [Lexer.remaining_nil, ok_map, List.append_nil] at hremaining
  exact hremaining

theorem tokenise_of_munches (functions : List String) {text : String} {pieces : List Piece}
    {c : Char} {s : List Char} (h : Munches text.toList pieces (c :: s))
    (hc : Piece.Category.ofChar? c = none) :
    tokenise functions text = .error (.unknownToken (String.ofList (c :: s))) := by
  have hremaining := h.remaining_eq functions
  rw [Lexer.remaining_of_ofChar?_eq_none hc] at hremaining
  exact hremaining

/-- A text is divided up to an unknown character: `front` can be split, and `rest` begins with a
character that is no blank, no digit, no letter and no sign. -/
structure StopsAt (s front rest : List Char) : Prop where
  text_eq : s = front ++ rest
  exists_isSplit : ∃ pieces, IsSplit front pieces
  unknown : ∃ c ∈ rest.head?, Piece.Category.ofChar? c = none

/-- The longest part of a text that can be split and stands before an unknown character. -/
structure StopsLastAt (s front rest : List Char) : Prop extends StopsAt s front rest where
  longest : ∀ front' rest', StopsAt s front' rest' → front'.length ≤ front.length

theorem StopsLastAt.rest_unique {s front rest front' rest' : List Char}
    (h : StopsLastAt s front rest) (h' : StopsLastAt s front' rest') : rest = rest' := by
  have hlength : front.length = front'.length :=
    Nat.le_antisymm (h'.longest _ _ h.toStopsAt) (h.longest _ _ h'.toStopsAt)
  exact (List.append_inj (h.text_eq.symm.trans h'.text_eq) hlength).2

theorem Munches.stopsLastAt {s : List Char} {pieces : List Piece} {c : Char} {rest : List Char}
    (h : Munches s pieces (c :: rest)) (hc : Piece.Category.ofChar? c = none) :
    StopsLastAt s (pieces.flatMap Piece.text) (c :: rest) := by
  refine ⟨⟨h.text_eq, ⟨pieces, h.isSplit⟩, c, rfl, hc⟩, ?_⟩
  rintro front' rest' ⟨heq, ⟨pieces', hsplit⟩, _⟩
  have hle := h.length_le (stuck_cons hc rest) hsplit heq
  have hlength := congrArg List.length (h.text_eq.symm.trans heq)
  rw [List.length_append, List.length_append] at hlength
  omega

theorem Munches.not_isSplit {s : List Char} {pieces : List Piece} {c : Char} {rest : List Char}
    (h : Munches s pieces (c :: rest)) (hc : Piece.Category.ofChar? c = none) :
    ¬∃ pieces, IsSplit s pieces := by
  rintro ⟨pieces', hsplit⟩
  have heq := (h.unique (stuck_cons hc rest) hsplit.munches stuck_nil).2
  cases heq

theorem IsSplit.unique {s : List Char} {pieces pieces' : List Piece} (h : IsSplit s pieces)
    (h' : IsSplit s pieces') : pieces = pieces' :=
  (h.munches.unique stuck_nil h'.munches stuck_nil).1

/-- A text can be split, or it is divided up to an unknown character. -/
theorem exists_isSplit_or_munches (s : List Char) :
    (∃ pieces, IsSplit s pieces) ∨
      ∃ pieces c rest, Munches s pieces (c :: rest) ∧ Piece.Category.ofChar? c = none := by
  obtain ⟨pieces, rest, hmunches, hstuck⟩ := exists_munches s
  cases rest with
  | nil =>
    have hsplit := hmunches.isSplit
    rw [← List.append_nil (pieces.flatMap Piece.text), ← hmunches.text_eq] at hsplit
    exact Or.inl ⟨pieces, hsplit⟩
  | cons c rest => exact Or.inr ⟨pieces, c, rest, hmunches, hstuck c rfl⟩

theorem tokenise_eq_ok_iff {functions : List String} {text : String} {tokens : List Token} :
    tokenise functions text = .ok tokens ↔
      ∃ pieces, IsSplit text.toList pieces ∧
        tokens = pieces.filterMap (Piece.token? functions) := by
  rcases exists_isSplit_or_munches text.toList with ⟨pieces, hsplit⟩ | ⟨pieces, c, rest, h, hc⟩
  · rw [tokenise_of_isSplit functions hsplit, Except.ok.injEq]
    constructor
    · rintro rfl
      exact ⟨pieces, hsplit, rfl⟩
    · rintro ⟨pieces', hsplit', rfl⟩
      rw [hsplit.unique hsplit']
  · rw [tokenise_of_munches functions h hc]
    constructor
    · intro herror
      cases herror
    · rintro ⟨pieces', hsplit, _⟩
      exact absurd ⟨pieces', hsplit⟩ (h.not_isSplit hc)

theorem tokenise_eq_error_iff {functions : List String} {text : String} {f : Fault} :
    tokenise functions text = .error f ↔
      (¬∃ pieces, IsSplit text.toList pieces) ∧
        ∃ front rest, StopsLastAt text.toList front rest ∧
          f = .unknownToken (String.ofList rest) := by
  rcases exists_isSplit_or_munches text.toList with ⟨pieces, hsplit⟩ | ⟨pieces, c, rest, h, hc⟩
  · rw [tokenise_of_isSplit functions hsplit]
    constructor
    · intro herror
      cases herror
    · rintro ⟨hnot, _⟩
      exact absurd ⟨pieces, hsplit⟩ hnot
  · rw [tokenise_of_munches functions h hc, Except.error.injEq]
    constructor
    · rintro rfl
      exact ⟨h.not_isSplit hc, _, _, h.stopsLastAt hc, rfl⟩
    · rintro ⟨_, front', rest', hlast, rfl⟩
      rw [(h.stopsLastAt hc).rest_unique hlast]

/-- The tokens of a text. There are tokens if and only if the text can be split, and then they are
those of its pieces in order; no text can be split in two ways. The text is refused if and only if
it cannot be split, and the fault tells what stands behind the longest part that can be split and
ends before an unknown character. -/
theorem tokenise_isSplit (functions : List String) (text : String) :
    (∀ tokens, tokenise functions text = .ok tokens ↔
      ∃ pieces, IsSplit text.toList pieces ∧
        tokens = pieces.filterMap (Piece.token? functions)) ∧
    (∀ pieces pieces', IsSplit text.toList pieces → IsSplit text.toList pieces' →
      pieces = pieces') ∧
    (∀ f, tokenise functions text = .error f ↔
      (¬∃ pieces, IsSplit text.toList pieces) ∧
        ∃ front rest, StopsLastAt text.toList front rest ∧
          f = .unknownToken (String.ofList rest)) ∧
    ∀ rest, (Fault.unknownToken rest).kind = .lexical ∧
      (Fault.unknownToken rest).message = "Unknown token at '" ++ rest ++ "'" :=
  ⟨fun _ => tokenise_eq_ok_iff, fun _ _ h h' => h.unique h', fun _ => tokenise_eq_error_iff,
    fun _ => ⟨rfl, rfl⟩⟩

/-! ## Texts that are put together -/

@[simp] theorem tokenise_empty (functions : List String) : tokenise functions "" = .ok [] :=
  Lexer.remaining_nil

theorem tokenise_of_piece (functions : List String) {text : String} {p : Piece}
    (h : text.toList = p.text) : tokenise functions text = .ok (p.token? functions).toList := by
  have hsplit := isSplit_singleton p
  rw [← h] at hsplit
  rw [tokenise_of_isSplit functions hsplit, List.filterMap_cons]
  cases p.token? functions <;> rfl

theorem tokenise_numeral (functions : List String) {text : String} (h : IsNumeral text.toList) :
    tokenise functions text = .ok [⟨.number, text⟩] := by
  have htoken := tokenise_of_piece functions (p := .numeral text.toList h) rfl
  rwa [Piece.token?, String.ofList_toList] at htoken

theorem tokenise_name (functions : List String) {text : String} (h : IsName text.toList) :
    tokenise functions text = .ok [⟨if text ∈ functions then .call else .ident, text⟩] := by
  have htoken := tokenise_of_piece functions (p := .name text.toList h) rfl
  rwa [Piece.token?, String.ofList_toList] at htoken

/-- A sign keeps the texts before and behind it apart. -/
theorem tokenise_of_sign {functions : List String} (text : String) {left right : String}
    {c : Char} {kind : Token.Kind} {ts ts' : List Token}
    (hsign : Token.Kind.ofChar? c = some kind)
    (hleft : tokenise functions left = .ok ts) (hright : tokenise functions right = .ok ts')
    (htext : text.toList = left.toList ++ c :: right.toList) :
    tokenise functions text = .ok (ts ++ ⟨kind, String.ofList [c]⟩ :: ts') := by
  obtain ⟨pieces, hsplit, rfl⟩ := tokenise_eq_ok_iff.1 hleft
  obtain ⟨pieces', hsplit', rfl⟩ := tokenise_eq_ok_iff.1 hright
  have hjoined := hsplit.append_sign (Token.Kind.ofChar?_eq_some_iff.1 hsign) hsplit'
  rw [← htext] at hjoined
  rw [tokenise_of_isSplit functions hjoined, List.filterMap_append, List.filterMap_cons]
  rfl

end Calculator
