import Automata.Alphabet
import Automata.Edge

/-! # State diagrams

What deterministic and nondeterministic automata have in common: states, labelled edges, a start
state and accepting states. A diagram is closed when everything it mentions is one of its states.
-/

namespace Automata

/-- States and edges over an alphabet, with a start state and accepting states. -/
structure StateDiagram where
  states : SortedSet State
  /-- The characters that words are made of. -/
  alphabet : Alphabet
  edges : EdgeSet
  /-- Where every run starts. -/
  start : State
  /-- Where a run may end. -/
  accepting : SortedSet State

namespace StateDiagram

/-- Every state that a diagram mentions is one of its states. -/
structure Closed (d : StateDiagram) : Prop where
  start_mem : d.start ∈ d.states
  accepting_mem : ∀ p ∈ d.accepting.toList, p ∈ d.states
  source_mem : ∀ e ∈ d.edges.toList, e.source ∈ d.states
  target_mem : ∀ e ∈ d.edges.toList, e.target ∈ d.states

/-- Checks that a diagram is closed: first its start state, then its accepting states, then the
    sources and the targets of its edges. -/
def checkClosed (d : StateDiagram) : Except Error (PLift d.Closed) :=
  if h₁ : d.start ∈ d.states then
    if h₂ : d.accepting ⊆ d.states then
      if h₃ : d.edges.sources ⊆ d.states then
        if h₄ : d.edges.targets ⊆ d.states then
          .ok ⟨⟨h₁, h₂, SortedSet.forall_of_map_subset h₃, SortedSet.forall_of_map_subset h₄⟩⟩
        else .error (.foreignTargets (d.edges.targets.diff d.states))
      else .error (.foreignSources (d.edges.sources.diff d.states))
    else .error (.acceptingOutside (d.accepting.diff d.states) d.states)
  else .error (.startOutside d.start d.states)

/-- One line that names the kind of automaton and its main parts. -/
def summary (d : StateDiagram) (kind : String) : String :=
  s!"{kind}(states={d.states.size}, alphabet={d.alphabet.text}, start={d.start.name}, "
    ++ s!"accepting={Error.statesText d.accepting})"

/-- The diagram as a formal tuple, one component after the other. -/
def describe (d : StateDiagram) : String :=
  let states := Text.braced (d.states.toList.map State.name)
  let accepting := Text.braced (d.accepting.toList.map State.name)
  "\n".intercalate <|
    [s!"Q = {states}", s!"Σ = {d.alphabet.text}", "δ ="]
      ++ d.edges.toList.map (fun e =>
        s!"    δ({e.source.name}, {e.label}) -> {e.target.name}")
      ++ [s!"q0 = {d.start.name}", s!"F = {accepting}"]

end StateDiagram

end Automata
