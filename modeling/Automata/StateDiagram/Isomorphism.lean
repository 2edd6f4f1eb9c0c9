import Automata.StateDiagram

/-! # Isomorphic diagrams

Two diagrams are isomorphic when renaming the states of one of them gives the other: nothing but
the names differs.
-/

namespace Automata.StateDiagram

/-- An edge between the new names of its states. -/
def renamedEdge (f : State → State) (e : Edge) : Edge := ⟨f e.source, e.label, f e.target⟩

/-- A renaming takes one diagram to another, and gives no two states the same name. -/
structure Isomorphism (f : State → State) (d e : StateDiagram) : Prop where
  alphabet_eq : d.alphabet = e.alphabet
  /-- Different states get different names. -/
  injective : ∀ p ∈ d.states, ∀ q ∈ d.states, f p = f q → p = q
  states_eq : d.states.map f = e.states
  start_eq : f d.start = e.start
  accepting_eq : d.accepting.map f = e.accepting
  edges_eq : d.edges.map (renamedEdge f) = e.edges

/-- Some renaming takes one diagram to another. -/
def Isomorphic (d e : StateDiagram) : Prop := ∃ f, Isomorphism f d e

/-- A diagram is another one under a list of names: the first state in order has the first name,
    the second one the second, and so on, all at once. -/
def CopiedAs (d e : StateDiagram) (names : List State) : Prop :=
  ∃ f, d.states.toList.map f = names ∧ Isomorphism f d e

theorem CopiedAs.states_eq {d e : StateDiagram} {names : List State} (copied : d.CopiedAs e names) :
    e.states = .ofList names := by
  obtain ⟨f, rfl, iso⟩ := copied
  rw [← iso.states_eq, SortedSet.map]

end Automata.StateDiagram
