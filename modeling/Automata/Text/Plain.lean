/-! # Plain texts

What becomes of a text that is echoed where no terminal listens. The control sequences that a
terminal acts on are left out, and a line ends in a line feed alone. A control sequence is an escape
and a bracket, then parameters, then intermediate characters, then a final character. What is stated
about commands holds for any other rules as well.
-/

namespace Automata.Text

/-- Whether a character is a parameter of a control sequence. -/
def isParameter (c : Char) : Bool := 0x30 ≤ c.toNat && c.toNat ≤ 0x3f

/-- Whether a character may stand between the parameters and the end of a control sequence. -/
def isIntermediate (c : Char) : Bool := 0x20 ≤ c.toNat && c.toNat ≤ 0x2f

/-- Whether a character ends a control sequence. -/
def isFinal (c : Char) : Bool := 0x40 ≤ c.toNat && c.toNat ≤ 0x7e

/-- The length of the control sequence that a text begins with, zero if it begins with none. -/
def controlLength : List Char → Nat
  | '\x1b' :: '[' :: cs =>
    let parameters := cs.takeWhile isParameter
    let rest := cs.dropWhile isParameter
    let intermediates := rest.takeWhile isIntermediate
    match rest.dropWhile isIntermediate with
    | c :: _ => if isFinal c then parameters.length + intermediates.length + 3 else 0
    | [] => 0
  | _ => 0

/-- A text without its control sequences, of which some characters are still to be passed over. -/
def withoutControls : Nat → List Char → List Char
  | _, [] => []
  | skipped + 1, _ :: cs => withoutControls skipped cs
  | 0, c :: cs =>
    match controlLength (c :: cs) with
    | 0 => c :: withoutControls 0 cs
    | skipped + 1 => withoutControls skipped cs

/-- A text whose lines end in a line feed where they ended in a carriage return before it. -/
def lineFeeds : List Char → List Char
  | '\r' :: '\n' :: cs => '\n' :: lineFeeds cs
  | c :: cs => c :: lineFeeds cs
  | [] => []

/-- A text as it is printed. -/
def plain (s : String) : String := String.ofList (lineFeeds (withoutControls 0 s.toList))

end Automata.Text
