import Automata.NFA.Run

/-! # Leaving out states that only wait

A state is redundant when it is neither the start nor accepting and when its edges, if it has any,
are all ε-moves. Redundant states are left out, and an edge into one goes to the states of its
ε-closure that stay.
-/

namespace Automata.NFA

/-- Whether a state may be left out. -/
def isRedundant (n : NFA) (p : State) : Bool :=
  decide (p ≠ n.start ∧ p ∉ n.accepting)
    && (n.edges.labelsFrom p).toList.all fun a => decide (a = Symbol.epsilon)

def redundant (n : NFA) : SortedSet State := n.states.filter n.isRedundant

def isSimple (n : NFA) : Bool := n.redundant.isEmpty

/-- The states that stand for a state once the redundant ones are gone. -/
def replacement (n : NFA) (p : State) : SortedSet State :=
  if n.isRedundant p then (n.epsilonClosure (.singleton p)).filter fun q => !n.isRedundant q
  else .singleton p

/-- What an edge becomes: none if its source goes, else one for every state that stands for its
    target, but no ε-move from a state to itself. -/
def rerouted (n : NFA) (e : Edge) : List Edge :=
  if n.isRedundant e.source then []
  else
    ((n.replacement e.target).toList.map fun q => { e with target := q }).filter fun d =>
      decide (d.label ≠ Symbol.epsilon ∨ d.target ≠ d.source)

/-- The automaton without its redundant states. -/
def simplify (n : NFA) : Except Error NFA :=
  if n.isSimple then .ok n
  else
    ofDiagram { n.toStateDiagram with
      states := n.states.diff n.redundant
      edges := .ofList (n.edges.toList.flatMap n.rerouted) }

end Automata.NFA
