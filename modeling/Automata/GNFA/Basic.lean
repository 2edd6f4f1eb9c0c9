import Automata.GNFA.Labels
import Automata.NFA.Combine

/-! # Generalized automata

A generalized automaton has an expression on every ordered pair of states, nothing leads into its
start state, and nothing leaves its single accepting state.
-/

namespace Automata

/-- States with an expression on every pair, a start state and an accepting state. -/
structure PairDiagram where
  states : SortedSet State
  alphabet : Alphabet
  /-- The expressions on the pairs. -/
  labels : PairLabels
  start : State
  /-- Where every accepting run ends. -/
  accept : State

namespace PairDiagram

/-- What makes a diagram a generalized automaton. -/
structure Closed (d : PairDiagram) : Prop where
  start_mem : d.start ∈ d.states
  accept_mem : d.accept ∈ d.states
  start_ne_accept : d.start ≠ d.accept
  /-- The labels are about the states of the diagram. -/
  labels_states : d.labels.states = d.states
  /-- Listed pairs consist of states. -/
  pair_mem : ∀ k ∈ d.labels.table.keys, k.1 ∈ d.states ∧ k.2 ∈ d.states
  /-- Nothing leads into the start state. -/
  start_not_target : d.start ∉ d.labels.targets
  /-- Nothing leaves the accepting state. -/
  accept_not_source : d.accept ∉ d.labels.sources

/-- Checks the conditions on a generalized automaton one after the other. -/
def checkClosed (d : PairDiagram) : Except Error (PLift d.Closed) :=
  if h₁ : d.start ∈ d.states then
    if h₂ : d.accept ∈ d.states then
      if h₃ : d.start ≠ d.accept then
        if h₄ : d.labels.states = d.states then
          if h₅ : ∀ k ∈ d.labels.table.keys, k.1 ∈ d.states ∧ k.2 ∈ d.states then
            if h₆ : d.start ∉ d.labels.targets then
              if h₇ : d.accept ∉ d.labels.sources then
                .ok ⟨⟨h₁, h₂, h₃, h₄, h₅, h₆, h₇⟩⟩
              else .error (.acceptLeft d.accept)
            else .error (.startEntered d.start)
          else .error (.foreignPairs ((d.labels.sources.union d.labels.targets).diff d.states))
        else .error (.coversOther d.labels.states d.states)
      else .error .startAccepts
    else .error (.acceptMissing d.accept)
  else .error (.startMissing d.start)

end PairDiagram

/-- A generalized nondeterministic automaton. -/
structure GNFA extends PairDiagram where
  closed : toPairDiagram.Closed

namespace GNFA

/-- The automaton of a diagram, if it meets the conditions. -/
def ofDiagram (d : PairDiagram) : Except Error GNFA := do
  let ⟨closed⟩ ← d.checkClosed
  return ⟨d, closed⟩

/-- The pairs of states that some edge joins, each with all the labels of its edges. -/
def bundles (E : EdgeSet) : List ((State × State) × SortedSet Symbol) :=
  (E.toList.map fun e => (e.source, e.target)).eraseDups.map fun k =>
    (k, .ofList ((E.toList.filter fun e => decide (e.source = k.1 ∧ e.target = k.2)).map
      Edge.label))

/-- The generalized automaton of a nondeterministic one: between two fresh bridge states, with all
    edges of a pair put into one label. -/
def ofNFA (n : NFA) : Building GNFA := do
  let bridged ← n.withSingleAccept
  Building.check <| ofDiagram {
    states := bridged.states
    alphabet := bridged.alphabet
    labels := .ofList bridged.states
      ((bundles bridged.edges).map fun b => (b.1, Regex.ofSymbols b.2))
    start := bridged.start
    accept := bridged.accepting.toList.head?.getD bridged.start }

/-- The names for bridge states that an automaton's own states leave free. -/
def bridgeAllocator (n : NFA) : Allocator where
  stem := "g"
  reserved := n.states

def summary (g : GNFA) : String :=
  s!"GNFA(states={g.states.size}, start={g.start.name}, accept={g.accept.name})"

end GNFA

end Automata
