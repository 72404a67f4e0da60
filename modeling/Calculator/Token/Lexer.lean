import Calculator.Fault
import Calculator.Text
import Calculator.Token.Basic

/-!
# Reading tokens

A lexer holds the rest of a line and hands out its tokens one by one. A token is the longest
numeral, digits with perhaps a point and more digits, or the longest run of letters, or one
bracket or operator character; blanks may stand before each. The letters are a call if a function
bears them as its name.

* `Token.split?_length_lt`: a token takes up at least one character.
* `Lexer.next_rest_length_lt`: a lexer that hands out a token has less text left.
* `Lexer.remaining_of_token`: the tokens to come are the next one and those that come after it.
* `Lexer.remaining_of_end`, `Lexer.remaining_of_error`: they end with the text, or at a fault.
-/

namespace Calculator

open Text

namespace Token

/-! ## The first token of a text -/

/-- Splits the longest numeral off a text. A point belongs to it only if a digit follows
(lexer:14-23, `match_number`). -/
def splitNumeral (s : List Char) : List Char × List Char :=
  match s.dropWhile isDigit with
  | '.' :: d :: rest =>
    if isDigit d then
      (s.takeWhile isDigit ++ '.' :: (d :: rest).takeWhile isDigit, (d :: rest).dropWhile isDigit)
    else (s.takeWhile isDigit, '.' :: d :: rest)
  | rest => (s.takeWhile isDigit, rest)

/-- The kind of a run of letters: a call if it is the name of a function (lexer:73, `next`). -/
def Kind.ofName (functions : List String) (name : String) : Kind :=
  if functions.contains name then .call else .ident

/-- The token that a text without leading blanks begins with, and the text after it
(lexer:43-55, 65-75, `kRules`, `next`). -/
def split? (functions : List String) : List Char → Option (Token × List Char)
  | [] => none
  | c :: r =>
    if isDigit c then
      let (numeral, rest) := splitNumeral (c :: r)
      some (⟨.number, String.ofList numeral⟩, rest)
    else if isLetter c then
      let name := String.ofList ((c :: r).takeWhile isLetter)
      some (⟨.ofName functions name, name⟩, (c :: r).dropWhile isLetter)
    else
      (Kind.ofChar? c).map fun kind => (⟨kind, String.ofList [c]⟩, r)

theorem splitNumeral_length_lt {c : Char} (h : isDigit c) (r : List Char) :
    (splitNumeral (c :: r)).2.length < (c :: r).length := by
  have hle : ((c :: r).dropWhile isDigit).length ≤ r.length := by
    rw [List.dropWhile_cons_of_pos h]
    exact (List.dropWhile_suffix isDigit).length_le
  rw [splitNumeral]
  split
  · next d rest heq =>
    have hd : (List.dropWhile isDigit (d :: rest)).length ≤ (d :: rest).length :=
      (List.dropWhile_suffix isDigit).length_le
    rw [heq] at hle
    split
    · simp only [List.length_cons] at hle hd ⊢
      omega
    · simp only [List.length_cons] at hle ⊢
      omega
  · simp only [List.length_cons]
    omega

theorem split?_length_lt {functions : List String} {s rest : List Char} {t : Token}
    (h : split? functions s = some (t, rest)) : rest.length < s.length := by
  cases s with
  | nil => simp [split?] at h
  | cons c r =>
    rw [split?] at h
    split at h
    · next hc =>
      simp only [Option.some.injEq, Prod.mk.injEq] at h
      rw [← h.2]
      exact splitNumeral_length_lt hc r
    · split at h
      · next hc =>
        simp only [Option.some.injEq, Prod.mk.injEq] at h
        rw [← h.2, List.dropWhile_cons_of_pos hc]
        exact Nat.lt_succ_of_le (List.dropWhile_suffix isLetter).length_le
      · cases hk : Kind.ofChar? c with
        | none => simp [hk] at h
        | some k =>
          simp only [hk, Option.map_some, Option.some.injEq, Prod.mk.injEq] at h
          simp [← h.2]

end Token

/-! ## The lexer -/

/-- The names of the functions that may be called, and the text that is still to be read (lexer
header:17-31, `Lexer`). -/
structure Lexer where
  functions : List String
  rest : List Char
deriving DecidableEq, Repr

namespace Lexer

/-- A lexer at the beginning of a text. -/
def ofText (functions : List String) (text : String) : Lexer := ⟨functions, text.toList⟩

/-- The next token, none at the end of the text, with the lexer behind it (lexer:61-78, `next`). A
character that begins no token stays unread, and so is found again by the next call. -/
def next (l : Lexer) : Except Fault (Option Token) × Lexer :=
  match dropBlanks l.rest with
  | [] => (.ok none, { l with rest := [] })
  | c :: r =>
    match Token.split? l.functions (c :: r) with
    | none => (.error (.unknownToken (String.ofList (c :: r))), { l with rest := c :: r })
    | some (t, rest) => (.ok (some t), { l with rest })

theorem next_rest_length_lt {l l' : Lexer} {t : Token} (h : l.next = (.ok (some t), l')) :
    l'.rest.length < l.rest.length := by
  have hle := dropBlanks_length_le l.rest
  rw [next] at h
  split at h
  · simp at h
  · next c r heq =>
    split at h
    · simp at h
    · next t' rest ht =>
      simp only [Prod.mk.injEq] at h
      rw [← h.2]
      rw [heq] at hle
      exact Nat.lt_of_lt_of_le (Token.split?_length_lt ht) hle

/-- All the tokens that are still to come, or the fault that the lexer runs into (lexer:83, the loop
of `tokenise`). -/
def remaining (l : Lexer) : Except Fault (List Token) :=
  match _h : l.next with
  | (.error f, _) => .error f
  | (.ok none, _) => .ok []
  | (.ok (some t), l') => (remaining l').map (t :: ·)
termination_by l.rest.length
decreasing_by exact next_rest_length_lt _h

theorem remaining_of_error {l l' : Lexer} {f : Fault} (h : l.next = (.error f, l')) :
    l.remaining = .error f := by
  rw [remaining]
  split <;> simp_all

theorem remaining_of_end {l l' : Lexer} (h : l.next = (.ok none, l')) : l.remaining = .ok [] := by
  rw [remaining]
  split <;> simp_all

theorem remaining_of_token {l l' : Lexer} {t : Token} (h : l.next = (.ok (some t), l')) :
    l.remaining = l'.remaining.map (t :: ·) := by
  rw [remaining]
  split <;> simp_all

/-- The outcomes of some calls to `next`, one after the other, faults included. -/
def outcomes : (calls : Nat) → Lexer → List (Except Fault (Option Token))
  | 0, _ => []
  | calls + 1, l => l.next.1 :: outcomes calls l.next.2

end Lexer

/-- The tokens of a text, given the names of the functions (lexer:80-85, `tokenise`). -/
def tokenise (functions : List String) (text : String) : Except Fault (List Token) :=
  (Lexer.ofText functions text).remaining

end Calculator
