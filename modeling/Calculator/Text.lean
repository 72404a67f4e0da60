/-!
# Characters of a line

The three classes of characters that have a meaning of their own: blanks, which separate, the
digits `0`–`9` and the letters `a`–`z`. All three lie in ASCII. Any other character, whatever its
script, belongs to none of them, and so it makes no difference whether a line is taken as
characters or as bytes.

Here and in the modules that build on this one, a definition names in brackets the unit of the
calculator that it stands for, the lines in that unit, and the function.

A text that is handed on as a run of bytes with a zero at its end is cut at its first U+0000, since
nothing behind that is seen.

* `dropBlanks_length_le`: dropping blanks never lengthens a text.
* `dropBlanks_dropBlanks`: what is left after the leading blanks begins with none.
-/

namespace Calculator.Text

/-- White space: the space and the five controls from the tab to the carriage return
(lexer:57-59, `skip_ws`). -/
def isBlank (c : Char) : Bool := c = ' ' || (9 ≤ c.toNat && c.toNat ≤ 13)

/-- A digit of a numeral, `0` to `9` (lexer:6-8, `is_digit`). -/
def isDigit (c : Char) : Bool := '0' ≤ c && c ≤ '9'

/-- A letter of a name, `a` to `z` (lexer:9-11, `is_lower`). -/
def isLetter (c : Char) : Bool := 'a' ≤ c && c ≤ 'z'

/-- The text without the blanks at its beginning (lexer:57-59, `skip_ws`). -/
def dropBlanks (s : List Char) : List Char := s.dropWhile isBlank

/-- The text without the blanks at its two ends (engine:11-15, `trim`). -/
def trim (s : List Char) : List Char := (dropBlanks (dropBlanks s).reverse).reverse

/-- The text before its first U+0000. -/
def untilNull (s : List Char) : List Char := s.takeWhile (· ≠ '\x00')

theorem dropBlanks_length_le (s : List Char) : (dropBlanks s).length ≤ s.length :=
  (List.dropWhile_suffix isBlank).length_le

@[simp] theorem dropBlanks_dropBlanks (s : List Char) :
    dropBlanks (dropBlanks s) = dropBlanks s := by
  induction s with
  | nil => rfl
  | cons c r ih =>
    by_cases h : isBlank c
    · simpa only [dropBlanks, List.dropWhile_cons_of_pos h] using ih
    · simp only [dropBlanks, List.dropWhile_cons_of_neg h]

end Calculator.Text
