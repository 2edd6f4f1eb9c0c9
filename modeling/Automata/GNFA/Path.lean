import Automata.GNFA.Basic
import Automata.Regex.Language

/-! # Paths of generalized automata

A path visits states one after the other, and the label on every step matches a part of the word.
-/

namespace Automata.GNFA

/-- Some steps lead from one state to another, and their labels match the parts of a word. -/
inductive Path (g : GNFA) : State → List Char → State → Prop where
  /-- No steps lead from a state to itself. -/
  | nil {p : State} : Path g p [] p
  /-- A step in front puts what its label matches before the word. -/
  | cons {p q r : State} {u v : List Char} :
      Regex.Matches g.alphabet (g.labels.label p q) u → Path g q v r → Path g p (u ++ v) r

/-- Some path from the start to the accepting state spells a word. -/
def HasPath (g : GNFA) (w : List Char) : Prop := Path g g.start w g.accept

end Automata.GNFA
