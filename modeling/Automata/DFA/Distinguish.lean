import Automata.DFA.Basic
import Automata.Sorting
import Automata.Worklist

/-! # Telling states apart

Two states are distinguishable when some word leads exactly one of them to an accepting state. This
is decided for one pair by following the pair, and for all pairs at once by marking pairs that lead
to a marked pair until no more are found.
-/

namespace Automata.DFA

/-- The states that can be reached from the start. -/
def reachable (d : DFA) : SortedSet State :=
  .ofList (Worklist.discover d.successors d.states.size [d.start])

/-- Whether exactly one of two states is accepting. -/
def differ (d : DFA) (p q : State) : Bool := decide (p ∈ d.accepting) != decide (q ∈ d.accepting)

/-- The pairs that a pair leads to, character by character. -/
def nextPairs (d : DFA) (k : State × State) : List (State × State) :=
  d.alphabet.characters.toList.filterMap fun c => do
    let p ← d.next k.1 c
    let q ← d.next k.2 c
    return (p, q)

/-- The complaint about a state that the automaton does not have. -/
def checkState (d : DFA) (p : State) : Except Error Unit :=
  if p ∈ d.states then .ok () else .error (.notAState p d.summary)

/-- Whether some word leads exactly one of two states to an accepting state. -/
def areDistinguishable (d : DFA) (p q : State) : Except Error Bool := do
  d.checkState p
  d.checkState q
  let pairs := Worklist.discover d.nextPairs (d.states.size * d.states.size) [(p, q)]
  return pairs.any fun k => d.differ k.1 k.2

/-- All pairs of an element of a list and a later one. -/
def pairsOf {α : Type} : List α → List (α × α)
  | [] => []
  | a :: l => l.map (fun b => (a, b)) ++ pairsOf l

/-- Two states with the smaller one first. -/
def ordered (p q : State) : State × State := if compare p q = .gt then (q, p) else (p, q)

/-- Whether some character leads a pair to two states that are marked as a pair. -/
def leadsTo (d : DFA) (marked : List (State × State)) (k : State × State) : Bool :=
  (d.nextPairs k).any fun s => decide (s.1 ≠ s.2 ∧ ordered s.1 s.2 ∈ marked)

/-- One walk over a list of pairs. A pair that leads to a marked one is marked at once, so that
    later pairs of the same walk may lead to it. -/
def sweep (d : DFA) : List (State × State) → List (State × State) → List (State × State)
  | marked, [] => marked
  | marked, k :: pairs =>
    if k ∉ marked ∧ d.leadsTo marked k = true then d.sweep (k :: marked) pairs
    else d.sweep marked pairs

/-- Walks over a list of pairs until a walk marks nothing. The bound is the number of walks; every
    walk but the last one marks a pair. -/
def sweepAll (d : DFA) : Nat → List (State × State) → List (State × State) → List (State × State)
  | 0, marked, _ => marked
  | bound + 1, marked, pairs =>
    let more := d.sweep marked pairs
    if more.length = marked.length then marked else d.sweepAll bound more pairs

/-- The pairs of states in a list that can be told apart, smaller state first, in order. Marking
    begins with the pairs that differ. -/
def distinguishablePairs (d : DFA) (states : List State) : List (State × State) :=
  let pairs := pairsOf (Sorting.sort states)
  let apart := d.sweepAll pairs.length (pairs.filter fun k => d.differ k.1 k.2) pairs
  (pairs.filter fun k => decide (k ∈ apart)).eraseDups

end Automata.DFA
