import Automata.Error
import Automata.Regex.Basic

/-! # Reading patterns

A pattern is read in one pass, character by character. The reader keeps the open groups, innermost
first; each remembers the alternatives that a bar has closed and the items of the current one.
A pattern has no escapes: every character but `. * + ? [ ] ( ) |` stands for itself.
-/

namespace Automata.Regex

/-- What has been read of a group. -/
structure Frame where
  /-- The alternatives before the last bar, latest first. -/
  alternatives : List Regex := []
  /-- The items after the last bar, latest first. -/
  items : List Regex := []

namespace Frame

/-- The group with one more item. -/
def push (f : Frame) (r : Regex) : Frame := { f with items := r :: f.items }

/-- The group after a bar. -/
def bar (f : Frame) : Frame := ⟨.concat f.items.reverse :: f.alternatives, []⟩

/-- The items of a group without a bar, or the union of its alternatives. -/
def parts (f : Frame) : List Regex :=
  match f.alternatives with
  | [] => f.items.reverse
  | _ :: _ => [.union f.bar.alternatives.reverse]

end Frame

/-- The state of a reader between two characters of a pattern. -/
structure Reader where
  /-- How many characters have been read. -/
  position : Nat := 0
  /-- The characters of a choice that is still open, latest first. -/
  choice : Option (List Char) := none
  /-- The innermost open group. -/
  frame : Frame := {}
  /-- The groups around it, innermost first. -/
  outer : List Frame := []

namespace Reader

/-- The quantifier that a character stands for. -/
def quantifier? : Char → Option (Regex → Regex)
  | '*' => some .star
  | '+' => some .plus
  | '?' => some .opt
  | _ => none

/-- One more character has been read, and the innermost group is now `f`. -/
def continueWith (r : Reader) (f : Frame) : Reader :=
  { r with position := r.position + 1, frame := f }

/-- Reads a character inside a choice. -/
def readChoice (r : Reader) (cs : List Char) (c : Char) : Reader :=
  if c = ']' then
    { r.continueWith (r.frame.push (.choice (.ofList (cs.map Symbol.ofChar)))) with choice := none }
  else { r.continueWith r.frame with choice := some (c :: cs) }

/-- Reads a character outside of choices. -/
def readItem (pattern : String) (r : Reader) (c : Char) : Except Error Reader :=
  match quantifier? c with
  | some quantify =>
    match r.frame.items with
    | [] => .error (.nothingToRepeat r.position pattern)
    | item :: items => .ok (r.continueWith { r.frame with items := quantify item :: items })
  | none =>
    match c with
    | '.' => .ok (r.continueWith (r.frame.push .any))
    | '|' => .ok (r.continueWith r.frame.bar)
    | '[' => .ok { r.continueWith r.frame with choice := some [] }
    | ']' => .error (.unbalanced ']' r.position pattern)
    | '(' => .ok { r.continueWith {} with outer := r.frame :: r.outer }
    | ')' =>
      match r.outer with
      | [] => .error (.unbalanced ')' r.position pattern)
      | f :: outer => .ok { r.continueWith (f.push (.concat r.frame.parts)) with outer := outer }
    | c => .ok (r.continueWith (r.frame.push (.lit (String.singleton c))))

def read (pattern : String) (r : Reader) (c : Char) : Except Error Reader :=
  match r.choice with
  | some cs => .ok (r.readChoice cs c)
  | none => r.readItem pattern c

/-- What has been read, once the pattern is at its end and nothing is left open. -/
def finish (pattern : String) (r : Reader) : Except Error (List Regex) :=
  match r.choice, r.outer with
  | some _, _ => .error (.unclosed ']' r.position pattern)
  | none, _ :: _ => .error (.unclosed ')' r.position pattern)
  | none, [] => .ok r.frame.parts

end Reader

/-- The items that a pattern consists of. -/
def parseItems (pattern : String) : Except Error (List Regex) := do
  let r ← pattern.toList.foldlM (Reader.read pattern) {}
  r.finish pattern

/-- The expression of a list of items. -/
def ofItems : List Regex → Regex
  | [] => .empty
  | [r] => r
  | l => .concat l

/-- The expression that a pattern stands for. -/
def parse (pattern : String) : Except Error Regex := do
  return ofItems (← parseItems pattern)

end Automata.Regex
