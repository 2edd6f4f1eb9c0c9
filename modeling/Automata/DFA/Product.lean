import Automata.DFA.Basic
import Automata.NFA.Combine

/-! # Products

Two deterministic automata run side by side. The states of a product are pairs, each named by its
two members; pairs with one name become one state, and the later pair decides its moves.
-/

namespace Automata.DFA

/-- The name of a pair of states. -/
def pairName (p q : State) : State := ⟨s!"({p.name}, {q.name})"⟩

/-- All pairs of a state of one automaton and a state of the other, in order. -/
def statePairs (d e : DFA) : List (State × State) :=
  d.states.toList.flatMap fun p => e.states.toList.map fun q => (p, q)

/-- The moves out of a pair. -/
def pairMoves (d e : DFA) (k : State × State) : List ((State × Symbol) × State) :=
  d.alphabet.characters.toList.filterMap fun c => do
    let p ← d.next k.1 c
    let q ← e.next k.2 c
    return ((pairName k.1 k.2, Symbol.ofChar c), pairName p q)

/-- Two automata side by side; a pair is accepting as its two members decide together. -/
def product (accept : Bool → Bool → Bool) (d e : DFA) : Except Error DFA := do
  StateDiagram.checkCompatible [d.diagram, e.diagram]
  let pairs := statePairs d e
  let accepting := pairs.filter fun k =>
    accept (decide (k.1 ∈ d.accepting)) (decide (k.2 ∈ e.accepting))
  ofDiagram {
    states := .ofList (pairs.map fun k => pairName k.1 k.2)
    alphabet := d.alphabet
    moves := .ofList (pairs.flatMap (pairMoves d e))
    start := pairName d.start e.start
    accepting := .ofList (accepting.map fun k => pairName k.1 k.2) }

def union (d e : DFA) : Except Error DFA := product (· || ·) d e

def intersection (d e : DFA) : Except Error DFA := product (· && ·) d e

end Automata.DFA
