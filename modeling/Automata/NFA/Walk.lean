import Automata.NFA.Run

/-! # Walks of nondeterministic automata

A walk is a list of edges, each of which begins where the one before it ends. Its labels spell a
text once every ε is left out.
-/

namespace Automata

/-- The text on the labels of edges, without the ε's. -/
def Edge.spelling (l : List Edge) : String :=
  String.join ((l.map Edge.label).filter fun a => decide (a ≠ Symbol.epsilon))

namespace NFA

/-- Edges of an automaton that lead, one after the other, from a state to another. -/
inductive Walk (n : NFA) : State → List Edge → State → Prop where
  | nil {p : State} : Walk n p [] p
  | cons {e : Edge} {l : List Edge} {q : State} :
      e ∈ n.edges → Walk n e.target l q → Walk n e.source (e :: l) q

/-- Some walk from the start to an accepting state spells a text. -/
def HasWalk (n : NFA) (word : String) : Prop :=
  ∃ q ∈ n.accepting, ∃ l, Walk n n.start l q ∧ Edge.spelling l = word

/-- Whether a word leads from a set of states to an accepting one, for a run that ends as soon as it
    has no states left. -/
def recognizesWhileActive (n : NFA) (S : SortedSet State) : List Char → Bool
  | [] => n.isAccepting S
  | c :: w => !(n.advance S c).isEmpty && n.recognizesWhileActive (n.advance S c) w

end NFA

end Automata
