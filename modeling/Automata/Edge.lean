import Automata.Error
import Automata.Table

/-! # Labelled edges

The moves of a nondeterministic automaton are a set of edges; those of a deterministic one are a
table from a state and a symbol to a state.
-/

namespace Automata

/-- A move from one state to another under a label. -/
structure Edge where
  /-- The state that is left. -/
  source : State
  /-- The symbol that is read, or ε. -/
  label : Symbol
  /-- The state that is reached. -/
  target : State
  deriving DecidableEq

namespace Edge

/-- Edges are ordered by source, then label, then target. -/
def order : Edge → Edge → Ordering :=
  compareLex (compareOn source) (compareLex (compareOn label) (compareOn target))

instance : Ord Edge := ⟨order⟩

instance : Std.TransOrd Edge :=
  inferInstanceAs (Std.TransCmp
    (compareLex (compareOn source) (compareLex (compareOn label) (compareOn target))))

instance : Std.LawfulEqOrd Edge where
  eq_of_compare {d e} h := by
    have h : ((compare d.source e.source).then
        ((compare d.label e.label).then (compare d.target e.target))) = .eq := h
    rw [Ordering.then_eq_eq, Ordering.then_eq_eq] at h
    have h₁ := Std.compare_eq_iff_eq.1 h.1
    have h₂ := Std.compare_eq_iff_eq.1 h.2.1
    have h₃ := Std.compare_eq_iff_eq.1 h.2.2
    cases d
    cases e
    simp_all

end Edge

/-- New names for states. -/
abbrev Renaming := Table State State

namespace Renaming

/-- The new name of a state; a state without one is at fault. -/
def apply (m : Renaming) (p : State) : Except Error State :=
  match m.get? p with
  | some q => .ok q
  | none => .error (.unmapped p)

end Renaming

/-- The moves of a nondeterministic automaton. -/
abbrev EdgeSet := SortedSet Edge

namespace EdgeSet

/-- The edges that a table lists: for a state and a symbol all the states they lead to. A repeated
    key keeps its last targets. -/
def ofTable (l : List ((State × Symbol) × List State)) : EdgeSet :=
  .ofList ((Table.ofList l).entries.flatMap fun e => e.2.map fun q => ⟨e.1.1, e.1.2, q⟩)

def labelled (E : EdgeSet) (a : Symbol) : EdgeSet := E.filter fun e => decide (e.label = a)

def successors (E : EdgeSet) (p : State) (a : Symbol) : SortedSet State :=
  .ofList ((E.toList.filter fun e => decide (e.source = p ∧ e.label = a)).map Edge.target)

theorem mem_successors {E : EdgeSet} {p q : State} {a : Symbol} :
    q ∈ E.successors p a ↔ ⟨p, a, q⟩ ∈ E := by
  rw [successors, SortedSet.mem_ofList, List.mem_map]
  refine ⟨fun ⟨e, he, hq⟩ => ?_, fun h => ⟨⟨p, a, q⟩, List.mem_filter.2 ⟨h, by simp⟩, rfl⟩⟩
  obtain ⟨hm, hk⟩ := List.mem_filter.1 he
  obtain ⟨hp, ha⟩ := of_decide_eq_true hk
  subst hp ha hq
  exact hm

/-- Only the edges with a label count for the successors under it. -/
theorem successors_labelled (E : EdgeSet) (p : State) (a : Symbol) :
    (E.labelled a).successors p a = E.successors p a :=
  SortedSet.ext fun q => by simp [mem_successors, labelled]

def sources (E : EdgeSet) : SortedSet State := E.map Edge.source

def targets (E : EdgeSet) : SortedSet State := E.map Edge.target

def labels (E : EdgeSet) : SortedSet Symbol := E.map Edge.label

def labelsFrom (E : EdgeSet) (p : State) : SortedSet Symbol :=
  .ofList ((E.toList.filter fun e => decide (e.source = p)).map Edge.label)

/-- The pairs of a state and a label that some edge has, each once. -/
def keys (E : EdgeSet) : List (State × Symbol) :=
  (E.toList.map fun e => (e.source, e.label)).eraseDups

/-- The edge between the new names of its states. -/
def relabelEdge (m : Renaming) (e : Edge) : Except Error Edge := do
  let p ← m.apply e.source
  let q ← m.apply e.target
  return ⟨p, e.label, q⟩

/-- The same edges between states of other names. -/
def relabel (E : EdgeSet) (m : Renaming) : Except Error EdgeSet := do
  return .ofList (← E.toList.mapM (relabelEdge m))

end EdgeSet

/-- The moves of a deterministic automaton. -/
abbrev MoveTable := Table (State × Symbol) State

namespace MoveTable

/-- The moves that a list of edges writes; a later edge replaces an earlier one with the same
    source and label. -/
def ofEdges (l : List Edge) : MoveTable :=
  .ofList (l.map fun e => ((e.source, e.label), e.target))

def edges (t : MoveTable) : List Edge := t.entries.map fun e => ⟨e.1.1, e.1.2, e.2⟩

def edgeSet (t : MoveTable) : EdgeSet := .ofList t.edges

def sources (t : MoveTable) : SortedSet State := .ofList (t.keys.map Prod.fst)

def targets (t : MoveTable) : SortedSet State := .ofList t.values

def labels (t : MoveTable) : SortedSet Symbol := .ofList (t.keys.map Prod.snd)

/-- The entry between the new names of its states. -/
def relabelEntry (m : Renaming) (e : (State × Symbol) × State) :
    Except Error ((State × Symbol) × State) := do
  let p ← m.apply e.1.1
  let q ← m.apply e.2
  return ((p, e.1.2), q)

/-- The same moves between states of other names. If two keys become one, the later entry stands. -/
def relabel (t : MoveTable) (m : Renaming) : Except Error MoveTable := do
  return .ofList (← t.entries.mapM (relabelEntry m))

end MoveTable

end Automata
