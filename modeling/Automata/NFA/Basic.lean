import Automata.StateDiagram
import Automata.Allocator

/-! # Nondeterministic automata

A nondeterministic automaton is a closed state diagram whose labels are characters of its alphabet
or ε. `NFA.ofDiagram` is the only way in, so every automaton has passed its checks.
-/

namespace Automata

/-- A nondeterministic finite automaton with ε-moves. -/
structure NFA extends StateDiagram where
  closed : toStateDiagram.Closed
  /-- Labels are characters of the alphabet or ε. -/
  label_mem : ∀ e ∈ edges.toList, e.label = Symbol.epsilon ∨ e.label ∈ alphabet.symbols

namespace NFA

/-- The labels of a diagram that are neither ε nor characters of its alphabet. -/
def foreignLabels (d : StateDiagram) : SortedSet Symbol :=
  d.edges.labels.filter fun a => decide (a ≠ Symbol.epsilon ∧ a ∉ d.alphabet.symbols)

theorem label_mem_of_foreignLabels {d : StateDiagram} (h : (foreignLabels d).isEmpty = true)
    (e : Edge) (he : e ∈ d.edges.toList) :
    e.label = Symbol.epsilon ∨ e.label ∈ d.alphabet.symbols := by
  have hl : e.label ∈ d.edges.labels := SortedSet.mem_map.2 ⟨e, he, rfl⟩
  have hn : e.label ∉ foreignLabels d := fun hm => by
    rw [SortedSet.isEmpty, List.isEmpty_iff] at h
    exact absurd (SortedSet.mem_toList.2 hm) (h ▸ List.not_mem_nil)
  by_cases hε : e.label = Symbol.epsilon
  · exact .inl hε
  · refine .inr (Classical.byContradiction fun ha => hn (SortedSet.mem_filter.2 ⟨hl, ?_⟩))
    exact decide_eq_true ⟨hε, ha⟩

/-- The automaton of a diagram, if it is closed and its labels belong to its alphabet. -/
def ofDiagram (d : StateDiagram) : Except Error NFA := do
  let ⟨closed⟩ ← d.checkClosed
  let foreign := foreignLabels d
  if h : foreign.isEmpty then return ⟨d, closed, label_mem_of_foreignLabels h⟩
  else throw (.foreignLabels foreign d.alphabet.symbols)

def summary (n : NFA) : String := n.toStateDiagram.summary "NFA"

/-- New names for the states of a diagram, smallest first, drawn one after the other. -/
def drawRenaming (states : SortedSet State) : Building Renaming := do
  return .ofList (states.toList.zip (← Building.drawMany states.size))

/-- The same automaton with every state replaced by a fresh one. -/
def clone (n : NFA) : Building NFA := do
  let m ← drawRenaming n.states
  Building.check do
    ofDiagram {
      states := .ofList m.values
      alphabet := n.alphabet
      edges := ← n.edges.relabel m
      start := ← m.apply n.start
      accepting := .ofList (← n.accepting.toList.mapM m.apply) }

end NFA

end Automata
