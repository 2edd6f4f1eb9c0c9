import Automata.Edge
import Automata.Regex.Simplified
import Automata.Sorting

/-! # Labelled pairs of states

The moves of a generalized automaton: an expression for every ordered pair of states. Pairs that
are not listed, and only they, carry the expression that matches nothing.
-/

namespace Automata

/-- An expression for every pair of states from a state set. -/
structure PairLabels where
  /-- The states that the labels are about. -/
  states : SortedSet State
  /-- The pairs with a label other than null. -/
  table : Table (State × State) Regex
  /-- Null labels are not listed. -/
  no_null : ∀ e ∈ table.entries, e.2.isNull = false

namespace PairLabels

/-- The labels of a table, without the null ones. -/
def ofTable (states : SortedSet State) (t : Table (State × State) Regex) : PairLabels where
  states := states
  table := t.filter fun _ r => !r.isNull
  no_null := fun e he => by
    have := (List.mem_filter.1 he).2
    simpa using this

def ofList (states : SortedSet State) (l : List ((State × State) × Regex)) : PairLabels :=
  ofTable states (.ofList l)

def label (d : PairLabels) (p q : State) : Regex := (d.table.get? (p, q)).getD .null

def sources (d : PairLabels) : SortedSet State := .ofList (d.table.keys.map Prod.fst)

def targets (d : PairLabels) : SortedSet State := .ofList (d.table.keys.map Prod.snd)

/-- How many listed pairs lead from a state to another one. -/
def outDegree (d : PairLabels) (p : State) : Nat :=
  (d.table.keys.filter fun k => decide (k.1 = p ∧ k.2 ≠ p)).length

/-- How many listed pairs lead from another state to a state. -/
def inDegree (d : PairLabels) (p : State) : Nat :=
  (d.table.keys.filter fun k => decide (k.2 = p ∧ k.1 ≠ p)).length

/-- The labels without a state, with the given pairs overwritten. -/
def without (d : PairLabels) (p : State) (updates : List ((State × State) × Regex)) :
    PairLabels :=
  ofTable (d.states.diff (.singleton p))
    ((d.table.filterKeys fun k => decide (k.1 ≠ p ∧ k.2 ≠ p)).putAll updates)

/-- The listed pairs with their labels, sorted by pair. -/
def listing (d : PairLabels) : List ((State × State) × Regex) :=
  Sorting.sortBy (compareLex (compareOn fun e => e.1.1) (compareOn fun e => e.1.2)) d.table.entries

end PairLabels

/-- The expression that matches exactly the given symbols, where ε stands for the empty word. -/
def Regex.ofSymbols (symbols : SortedSet Symbol) : Regex :=
  let letters := symbols.filter fun a => decide (a ≠ Symbol.epsilon)
  let r : Regex :=
    match letters.toList with
    | [] => .null
    | [a] => .lit a
    | _ => .choice letters
  if Symbol.epsilon ∈ symbols then Regex.unionOf [.empty, r] else r

end Automata
