import Automata.DFA.Equivalence

/-! # The quotient by equivalence

The states that some word leads to from the start fall into classes that no word splits. An
automaton is the quotient of another one if its states are the smallest states of these classes and
if it moves from class to class as the other one does from state to state.
-/

namespace Automata.DFA

/-- Some word leads from the start to a state. -/
def IsReached (d : DFA) (p : State) : Prop := ∃ w, d.run d.start w = some p

/-- The second state is the smallest one that is reached and equivalent to the first. -/
structure IsLeast (d : DFA) (p r : State) : Prop where
  reached : d.IsReached r
  equivalent : d.Equivalent r p
  le : ∀ q, d.IsReached q → d.Equivalent q p → (compare r q).isLE = true

/-- The automaton `m` is the quotient of `d`, with `rep p` for the class of a reached state `p`. -/
structure IsQuotient (d m : DFA) (rep : State → State) : Prop where
  least : ∀ p, d.IsReached p → d.IsLeast p (rep p)
  alphabet : m.alphabet = d.alphabet
  states : ∀ q, q ∈ m.states ↔ ∃ p, d.IsReached p ∧ q = rep p
  start : m.start = rep d.start
  accepting : ∀ q, q ∈ m.accepting ↔ ∃ p, d.IsReached p ∧ p ∈ d.accepting ∧ q = rep p
  next : ∀ p, d.IsReached p → ∀ c q, d.next p c = some q → m.next (rep p) c = some (rep q)

end Automata.DFA
