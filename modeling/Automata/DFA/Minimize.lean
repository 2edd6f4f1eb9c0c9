import Automata.DFA.Distinguish
import Automata.DisjointSets

/-! # Minimization

Reachable states that no word tells apart become one state, the one of them with the smallest name.
The result depends neither on the order in which the states are listed nor on which root stays when
sets are merged; both are left open until the end.
-/

namespace Automata.DFA

/-- The states of a list in any order, grouped so that states which cannot be told apart share a
    set, where `pick` chooses the roots that stay. -/
def classesBy (d : DFA) (pick : DisjointSets State → State → List State → State)
    (states : List State) : DisjointSets State :=
  let apart := d.distinguishablePairs states
  ((pairsOf (Sorting.sort states)).filter fun k => !apart.contains k).foldl
    (fun sets k => sets.mergeBy pick [k.1, k.2]) (.ofList states)

/-- The member with the smallest name in a group of states. -/
def smallest (p : State) (l : List State) : State := l.foldl State.least p

/-- For every item of a partition the smallest item of its set. -/
def elect (sets : DisjointSets State) : Renaming :=
  .ofList (sets.sets.flatMap fun group => group.map fun p => (p, smallest p group))

/-- The move between new names that a state's move gives. -/
def classMove (d : DFA) (m : Renaming) (p : State) (c : Char) :
    Except Error ((State × Symbol) × State) := do
  match d.next p c with
  | some q => return ((← m.apply p, Symbol.ofChar c), ← m.apply q)
  | none => throw (.undefinedMove p c)

/-- The automaton on the new names of the states of a list. -/
def renamedBy (d : DFA) (m : Renaming) (states : List State) : Except Error DFA := do
  let moves ← states.mapM fun p => d.alphabet.characters.toList.mapM (d.classMove m p)
  let accepting := states.filter fun p => decide (p ∈ d.accepting)
  ofDiagram {
    states := .ofList m.values
    alphabet := d.alphabet
    moves := .ofList moves.flatten
    start := ← m.apply d.start
    accepting := .ofList (← accepting.mapM m.apply) }

/-- The automaton on the classes of the states of a list, made with any choice of roots. -/
def quotientBy (d : DFA) (pick : DisjointSets State → State → List State → State)
    (states : List State) : Except Error DFA :=
  d.renamedBy (elect (d.classesBy pick states)) states

/-- The automaton on the classes of the reachable states. -/
def minimize (d : DFA) : Except Error DFA :=
  d.quotientBy DisjointSets.heaviest d.reachable.toList

end Automata.DFA
