import Automata.Text.Printable

/-! # Quoted texts

How a message quotes a piece of input: between single quotes, or between double quotes when it
holds a single quote and no double one. Backslashes and the chosen quote take a backslash; a
character that is not printable is written by its short escape or its code point.
-/

namespace Automata.Text

/-- The hexadecimal digits of a number, in lower case, padded with zeros to a width. -/
def hexadecimal (width n : Nat) : List Char :=
  let digits := Nat.toDigits 16 n
  List.replicate (width - digits.length) '0' ++ digits

/-- A character as a quoted text shows it. -/
def escaped (quote c : Char) : List Char :=
  if c = '\\' || c = quote then ['\\', c]
  else if c = '\n' then ['\\', 'n']
  else if c = '\r' then ['\\', 'r']
  else if c = '\t' then ['\\', 't']
  else if isPrintable c then [c]
  else if c.toNat < 0x100 then '\\' :: 'x' :: hexadecimal 2 c.toNat
  else if c.toNat < 0x10000 then '\\' :: 'u' :: hexadecimal 4 c.toNat
  else '\\' :: 'U' :: hexadecimal 8 c.toNat

/-- The quote that surrounds a text: double when it holds single quotes only. -/
def quoteFor (cs : List Char) : Char :=
  if cs.contains '\x27' && !cs.contains '"' then '"' else '\x27'

/-- A text as a message quotes it. -/
def quoted (s : String) : String :=
  let quote := quoteFor s.toList
  String.ofList (quote :: s.toList.flatMap (escaped quote) ++ [quote])

/-- Quoted texts in brackets. -/
def quotedList (l : List String) : String := "[" ++ ", ".intercalate (l.map quoted) ++ "]"

/-- Texts in brackets, as they are. -/
def bracketed (l : List String) : String := "[" ++ ", ".intercalate l ++ "]"

/-- Texts in braces, as they are. -/
def braced (l : List String) : String := "\x7b" ++ ", ".intercalate l ++ "\x7d"

end Automata.Text
