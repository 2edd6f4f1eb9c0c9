/-! # Lines

Splitting a text at its line ends. A carriage return and the line feed after it are one line end,
and a line end at the very end of the text starts no further line.
-/

namespace Automata.Text

/-- Whether a character ends a line. -/
def isLineEnd (c : Char) : Bool :=
  let n := c.toNat
  (0x0a ≤ n && n ≤ 0x0d) || (0x1c ≤ n && n ≤ 0x1e) || n == 0x85 || n == 0x2028 || n == 0x2029

/-- The lines of a text, given the characters of the current line in reverse and whether the
    character before was a carriage return. -/
def linesFrom : List Char → Bool → List Char → List (List Char)
  | [], _, [] => []
  | line, _, [] => [line.reverse]
  | line, afterReturn, c :: cs =>
    if afterReturn && c == '\n' then linesFrom line false cs
    else if isLineEnd c then line.reverse :: linesFrom [] (c == '\r') cs
    else linesFrom (c :: line) false cs

def lines (s : String) : List String := (linesFrom [] false s.toList).map String.ofList

end Automata.Text
