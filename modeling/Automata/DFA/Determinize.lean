import Automata.DFA.Basic
import Automata.NFA.Run
import Automata.Sorting

/-! # The subset construction

The states of the deterministic automaton are the sets that runs of the nondeterministic one can
reach, each named by its members. Sets whose names are the same become one state, and the later
set decides its moves.
-/

namespace Automata

namespace NFA

/-- The name of a list of states: the names of its members, sorted, in braces. -/
def subsetName (l : List State) : State :=
  ⟨Text.braced (Sorting.sort (l.map State.name))⟩

/-- The state that stands for a set of states. -/
def subsetState (S : SortedSet State) : State := subsetName S.toList

/-- The sets that a set leads to, character by character. -/
def nextSubsets (n : NFA) (S : SortedSet State) : List (SortedSet State) :=
  n.alphabet.characters.toList.map (n.advance S)

/-- The sets that runs can reach, in the order in which a breadth-first search meets them. There
    are no more of them than sets of states. -/
def subsets (n : NFA) : List (SortedSet State) :=
  Worklist.discover n.nextSubsets (Nat.pow 2 n.states.size) [n.startSet]

/-- The moves out of a set. -/
def subsetMoves (n : NFA) (S : SortedSet State) : List ((State × Symbol) × State) :=
  n.alphabet.characters.toList.map fun c =>
    ((subsetState S, Symbol.ofChar c), subsetState (n.advance S c))

/-- The deterministic automaton on the sets that runs can reach. -/
def determinize (n : NFA) : Except Error DFA :=
  DFA.ofDiagram {
    states := .ofList (n.subsets.map subsetState)
    alphabet := n.alphabet
    moves := .ofList (n.subsets.flatMap n.subsetMoves)
    start := subsetState n.startSet
    accepting := .ofList ((n.subsets.filter n.isAccepting).map subsetState) }

end NFA

end Automata
