import Automata.Proofs.Building
import Automata.Proofs.NFA.Language

/-! # Automata of diagrams

A closed diagram whose labels fit is an automaton, and labels that do not fit are an error about
symbols. Automata are apart when they have no states in common.
-/

namespace Automata

theorem StateDiagram.checkClosed_ok {d : StateDiagram} (closed : d.Closed) :
    d.checkClosed = .ok ⟨closed⟩ := by
  have accepting : d.accepting ⊆ d.states := closed.accepting_mem
  have sources : d.edges.sources ⊆ d.states := by
    intro p member
    obtain ⟨e, edge, rfl⟩ := SortedSet.mem_map.mp member
    exact closed.source_mem e edge
  have targets : d.edges.targets ⊆ d.states := by
    intro p member
    obtain ⟨e, edge, rfl⟩ := SortedSet.mem_map.mp member
    exact closed.target_mem e edge
  rw [checkClosed, dif_pos closed.start_mem, dif_pos accepting, dif_pos sources, dif_pos targets]

namespace NFA

/-- The labels of a diagram are characters of its alphabet or ε. -/
def WellLabelled (d : StateDiagram) : Prop :=
  ∀ e ∈ d.edges, e.label = Symbol.epsilon ∨ e.label ∈ d.alphabet.symbols

variable {d : StateDiagram} {n : NFA}

theorem foreignLabels_isEmpty (labels : WellLabelled d) : (foreignLabels d).isEmpty = true := by
  rw [SortedSet.isEmpty, List.isEmpty_iff]
  apply List.eq_nil_iff_forall_not_mem.mpr
  intro a member
  obtain ⟨used, foreign⟩ := SortedSet.mem_filter.mp (SortedSet.mem_toList.mp member)
  obtain ⟨e, edge, rfl⟩ := SortedSet.mem_map.mp used
  obtain ⟨reads, outside⟩ := of_decide_eq_true foreign
  exact (labels e edge).elim reads outside

theorem ofDiagram_ok (closed : d.Closed) (labels : WellLabelled d) :
    ofDiagram d = .ok ⟨d, closed, labels⟩ := by
  rw [ofDiagram, StateDiagram.checkClosed_ok closed]
  exact dif_pos (foreignLabels_isEmpty labels)

theorem ofDiagram_error (closed : d.Closed) (labels : ¬ WellLabelled d) :
    ∃ e, ofDiagram d = .error e ∧ e.kind = .alphabet := by
  refine ⟨.foreignLabels (foreignLabels d) d.alphabet.symbols, ?_, rfl⟩
  rw [ofDiagram, StateDiagram.checkClosed_ok closed]
  exact dif_neg fun empty => labels (label_mem_of_foreignLabels empty)

theorem ofDiagram_ensures {a : Allocator} {P : NFA → Allocator → Prop} {E : Error → Prop}
    (closed : d.Closed) (labels : WellLabelled d) (h : ∀ n, n.toStateDiagram = d → P n a) :
    (Building.check (ofDiagram d)).Ensures a P E := by
  rw [ofDiagram_ok closed labels]
  exact .check_ok (h _ rfl)

theorem ofDiagram_refused {a : Allocator} {P : NFA → Allocator → Prop} {E : Error → Prop}
    (closed : d.Closed) (labels : ¬ WellLabelled d) (h : ∀ e : Error, e.kind = .alphabet → E e) :
    (Building.check (ofDiagram d)).Ensures a P E := by
  obtain ⟨e, failure, kind⟩ := ofDiagram_error closed labels
  rw [failure]
  exact .check_error (h e kind)

variable {m : NFA} {p : State} {u v : List Char}

theorem start_mem (n : NFA) : n.start ∈ n.states := n.closed.start_mem

theorem accepting_subset (member : p ∈ n.accepting) : p ∈ n.states :=
  n.closed.accepting_mem p member

/-- Two automata have no states in common. -/
def Apart (m n : NFA) : Prop := ∀ p ∈ m.states, p ∉ n.states

theorem Apart.symm (apart : m.Apart n) : n.Apart m := fun p right left => apart p left right

instance : Std.Symm Apart := ⟨fun _ _ => Apart.symm⟩

/-- An automaton that has the edges of another one continues its words. -/
theorem wordsFrom_extend (edges : ∀ e ∈ m.edges, e ∈ n.edges)
    (continues : ∀ q ∈ m.accepting, v ∈ n.wordsFrom q) (h : u ∈ m.wordsFrom p) :
    u ++ v ∈ n.wordsFrom p := by
  let F : State → Language Char := fun p => {u | u ++ v ∈ n.wordsFrom p}
  have below : m.wordsFrom p ≤ F p := by
    apply wordsFrom_le
    · exact continues
    · intro e edge w after
      have after := append_mem_wordsFrom (edges e edge) after
      rwa [← List.append_assoc] at after
  exact below h

theorem wordsFrom_mono (edges : ∀ e ∈ m.edges, e ∈ n.edges)
    (accepting : ∀ q ∈ m.accepting, q ∈ n.accepting) (p : State) :
    m.wordsFrom p ≤ n.wordsFrom p := by
  intro u h
  have extended := wordsFrom_extend edges (fun q final => nil_mem_wordsFrom (accepting q final)) h
  rwa [List.append_nil] at extended

theorem wordsFrom_epsilon {q : State} (edge : ⟨p, Symbol.epsilon, q⟩ ∈ n.edges) :
    n.wordsFrom q ≤ n.wordsFrom p :=
  fun _ h => append_mem_wordsFrom edge h

end NFA

end Automata
