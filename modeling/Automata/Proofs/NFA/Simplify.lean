import Automata.NFA.Simplify
import Automata.Proofs.NFA.Basic

/-! # Leaving out redundant states keeps the language

A state that stays accepts the same words as before, and a state that goes accepts what the states
that stand for it accept.
-/

namespace Automata.NFA

variable {n : NFA} {p q : State} {e : Edge} {w : List Char}

theorem Path.mem_states (path : n.Path p w q) (member : p ∈ n.states) : q ∈ n.states := by
  induction path with
  | nil => exact member
  | epsilon edge _ ih | cons _ edge _ ih => exact ih (n.closed.target_mem _ edge)

theorem wordsFrom_le_of_path (path : n.Path p [] q) : n.wordsFrom q ≤ n.wordsFrom p := by
  rintro w ⟨r, final, after⟩
  exact ⟨r, final, path.append after⟩

theorem isRedundant_iff : n.isRedundant p = true ↔
    p ≠ n.start ∧ p ∉ n.accepting ∧ ∀ e ∈ n.edges, e.source = p → e.label = Symbol.epsilon := by
  simp only [isRedundant, Bool.and_eq_true, decide_eq_true_eq, List.all_eq_true, and_assoc]
  refine and_congr_right fun _ => and_congr_right fun _ => ?_
  simp only [EdgeSet.labelsFrom, SortedSet.mem_toList, SortedSet.mem_ofList, List.mem_map,
    List.mem_filter, decide_eq_true_eq]
  constructor
  · intro all e edge leaves
    exact all _ ⟨e, ⟨edge, leaves⟩, rfl⟩
  · rintro all a ⟨e, ⟨edge, leaves⟩, rfl⟩
    exact all e edge leaves

theorem mem_redundant : p ∈ n.redundant ↔ p ∈ n.states ∧ n.isRedundant p = true :=
  SortedSet.mem_filter

theorem mem_replacement (member : q ∈ n.replacement p) :
    n.Path p [] q ∧ ¬ n.isRedundant q = true := by
  unfold replacement at member
  split at member
  · obtain ⟨closed, stays⟩ := SortedSet.mem_filter.mp member
    obtain ⟨r, root, path⟩ := mem_epsilonClosure.mp closed
    obtain rfl := SortedSet.mem_singleton.mp root
    exact ⟨path, by simpa using stays⟩
  · rename_i stays
    obtain rfl := SortedSet.mem_singleton.mp member
    exact ⟨.nil, stays⟩

theorem replacement_of_stays (stays : ¬ n.isRedundant p = true) :
    n.replacement p = .singleton p :=
  if_neg stays

theorem mem_replacement_of_path (goes : n.isRedundant p = true) (path : n.Path p [] q)
    (stays : ¬ n.isRedundant q = true) : q ∈ n.replacement p := by
  rw [replacement, if_pos goes, SortedSet.mem_filter, mem_epsilonClosure]
  exact ⟨⟨p, SortedSet.mem_singleton.mpr rfl, path⟩, by simpa using stays⟩

theorem start_stays : ¬ n.isRedundant n.start = true :=
  fun goes => (isRedundant_iff.mp goes).1 rfl

theorem accepting_stays (final : p ∈ n.accepting) : ¬ n.isRedundant p = true :=
  fun goes => (isRedundant_iff.mp goes).2.1 final

/-- The diagram without the redundant states. -/
def simplifiedDiagram (n : NFA) : StateDiagram where
  states := n.states.diff n.redundant
  alphabet := n.alphabet
  edges := .ofList (n.edges.toList.flatMap n.rerouted)
  start := n.start
  accepting := n.accepting

theorem mem_states_simplifiedDiagram :
    p ∈ n.simplifiedDiagram.states ↔ p ∈ n.states ∧ ¬ n.isRedundant p = true := by
  rw [simplifiedDiagram, SortedSet.mem_diff, mem_redundant]
  tauto

theorem mem_edges_simplifiedDiagram : e ∈ n.simplifiedDiagram.edges ↔
    ∃ d ∈ n.edges, ¬ n.isRedundant d.source = true ∧ ∃ q ∈ n.replacement d.target,
      e = ⟨d.source, d.label, q⟩ ∧ (d.label ≠ Symbol.epsilon ∨ q ≠ d.source) := by
  simp only [simplifiedDiagram, SortedSet.mem_ofList, List.mem_flatMap, SortedSet.mem_toList]
  refine exists_congr fun d => and_congr_right fun _ => ?_
  by_cases goes : n.isRedundant d.source = true
  · simp [rerouted, goes]
  · rw [rerouted, if_neg goes, List.mem_filter, List.mem_map, decide_eq_true_eq]
    constructor
    · rintro ⟨⟨q, member, rfl⟩, moves⟩
      exact ⟨goes, q, member, rfl, moves⟩
    · rintro ⟨_, q, member, rfl, moves⟩
      exact ⟨⟨q, member, rfl⟩, moves⟩

theorem closed_simplifiedDiagram : n.simplifiedDiagram.Closed where
  start_mem := mem_states_simplifiedDiagram.mpr ⟨n.start_mem, start_stays⟩
  accepting_mem p final :=
    mem_states_simplifiedDiagram.mpr ⟨accepting_subset final, accepting_stays final⟩
  source_mem e edge := by
    obtain ⟨d, old, stays, q, _, rfl, _⟩ := mem_edges_simplifiedDiagram.mp edge
    exact mem_states_simplifiedDiagram.mpr ⟨n.closed.source_mem d old, stays⟩
  target_mem e edge := by
    obtain ⟨d, old, _, q, stands, rfl, _⟩ := mem_edges_simplifiedDiagram.mp edge
    obtain ⟨path, stays⟩ := mem_replacement stands
    exact mem_states_simplifiedDiagram.mpr ⟨path.mem_states (n.closed.target_mem d old), stays⟩

theorem wellLabelled_simplifiedDiagram : WellLabelled n.simplifiedDiagram := by
  intro e edge
  obtain ⟨d, old, _, q, _, rfl, _⟩ := mem_edges_simplifiedDiagram.mp edge
  exact n.label_mem d old

variable {m : NFA}

theorem wordsFrom_of_simplifiedDiagram_le (diagram : m.toStateDiagram = n.simplifiedDiagram)
    (p : State) : m.wordsFrom p ≤ n.wordsFrom p := by
  refine wordsFrom_le (fun q final => ?_) (fun e edge w h => ?_) p
  · rw [diagram] at final
    exact nil_mem_wordsFrom final
  · rw [diagram] at edge
    obtain ⟨d, old, _, q, stands, rfl, _⟩ := mem_edges_simplifiedDiagram.mp edge
    show d.label.spelled ++ w ∈ n.wordsFrom d.source
    exact append_mem_wordsFrom old (wordsFrom_le_of_path (mem_replacement stands).1 h)

/-- What a state accepts, one of the states that stand for it accepts after the simplification. -/
theorem exists_replacement_of_mem_wordsFrom (diagram : m.toStateDiagram = n.simplifiedDiagram)
    (h : w ∈ n.wordsFrom p) : ∃ q ∈ n.replacement p, w ∈ m.wordsFrom q := by
  let F : State → Language Char := fun p => {w | ∃ q ∈ n.replacement p, w ∈ m.wordsFrom q}
  have below : n.wordsFrom p ≤ F p := by
    refine wordsFrom_le (fun p final => ?_) (fun e edge w h => ?_) p
    · have kept : p ∈ m.accepting := by
        rw [diagram]
        exact final
      refine ⟨p, ?_, nil_mem_wordsFrom kept⟩
      rw [replacement_of_stays (accepting_stays final)]
      exact SortedSet.mem_singleton.mpr rfl
    · obtain ⟨q, stands, h⟩ := h
      obtain ⟨path, stays⟩ := mem_replacement stands
      by_cases goes : n.isRedundant e.source = true
      · -- the state only waits, and what stands for its target stands for it as well
        have waits := (isRedundant_iff.mp goes).2.2 e edge rfl
        obtain ⟨p, a, t⟩ := e
        obtain rfl : a = Symbol.epsilon := waits
        exact ⟨q, mem_replacement_of_path goes (.epsilon edge path) stays, h⟩
      · refine ⟨e.source, ?_, ?_⟩
        · rw [replacement_of_stays goes]
          exact SortedSet.mem_singleton.mpr rfl
        · by_cases moves : e.label ≠ Symbol.epsilon ∨ q ≠ e.source
          · have kept : ⟨e.source, e.label, q⟩ ∈ m.edges := by
              rw [diagram]
              exact mem_edges_simplifiedDiagram.mpr ⟨e, edge, goes, q, stands, rfl, moves⟩
            have step := append_mem_wordsFrom kept h
            exact step
          · obtain ⟨reads, rfl⟩ := not_or.mp moves |>.imp not_not.mp not_not.mp
            rwa [reads]
  exact below h

/-- A state that stays accepts the same words as before. -/
theorem wordsFrom_of_simplifiedDiagram (diagram : m.toStateDiagram = n.simplifiedDiagram)
    (stays : ¬ n.isRedundant p = true) : m.wordsFrom p = n.wordsFrom p := by
  apply le_antisymm (wordsFrom_of_simplifiedDiagram_le diagram p)
  intro w h
  obtain ⟨q, stands, h⟩ := exists_replacement_of_mem_wordsFrom diagram h
  rw [replacement_of_stays stays] at stands
  exact SortedSet.mem_singleton.mp stands ▸ h

theorem isSimple_iff : n.isSimple = true ↔ ∀ p ∈ n.states, ¬ n.isRedundant p = true := by
  rw [isSimple, SortedSet.isEmpty_iff]
  refine forall_congr' fun p => ?_
  rw [mem_redundant, not_and]

/-- What simplification makes of an automaton: the states that stay accept what they accepted
    before, and they still read a character where it leads to an accepted word. -/
structure Simplifies (m n : NFA) : Prop where
  start : m.start = n.start
  accepting : m.accepting = n.accepting
  alphabet : m.alphabet = n.alphabet
  states : ∀ p, p ∈ m.states ↔ p ∈ n.states ∧ ¬ n.isRedundant p = true
  wordsFrom : ∀ p, ¬ n.isRedundant p = true → m.wordsFrom p = n.wordsFrom p
  reads : ∀ e ∈ n.edges, e.label ≠ Symbol.epsilon → ∀ w ∈ n.wordsFrom e.target,
    ∃ d ∈ m.edges, d.source = e.source ∧ d.label = e.label

theorem Simplifies.language (simplifies : m.Simplifies n) : m.language = n.language := by
  rw [NFA.language, NFA.language, simplifies.start]
  exact simplifies.wordsFrom n.start start_stays

theorem simplifies_self (simple : n.isSimple = true) : n.Simplifies n where
  start := rfl
  accepting := rfl
  alphabet := rfl
  states p := ⟨fun member => ⟨member, isSimple_iff.mp simple p member⟩, And.left⟩
  wordsFrom _ _ := rfl
  reads e edge _ _ _ := ⟨e, edge, rfl, rfl⟩

theorem simplifies_of_simplifiedDiagram (diagram : m.toStateDiagram = n.simplifiedDiagram) :
    m.Simplifies n where
  start := by rw [diagram, simplifiedDiagram]
  accepting := by rw [diagram, simplifiedDiagram]
  alphabet := by rw [diagram, simplifiedDiagram]
  states p := by
    rw [diagram]
    exact mem_states_simplifiedDiagram
  wordsFrom _ stays := wordsFrom_of_simplifiedDiagram diagram stays
  reads e edge reads w h := by
    obtain ⟨q, stands, _⟩ := exists_replacement_of_mem_wordsFrom diagram h
    have stays : ¬ n.isRedundant e.source = true := fun goes =>
      reads ((isRedundant_iff.mp goes).2.2 e edge rfl)
    refine ⟨⟨e.source, e.label, q⟩, ?_, rfl, rfl⟩
    rw [diagram]
    exact mem_edges_simplifiedDiagram.mpr ⟨e, edge, stays, q, stands, rfl, .inl reads⟩

/-- Simplification always succeeds. -/
theorem simplify_spec (n : NFA) : ∃ m, n.simplify = .ok m ∧ m.Simplifies n := by
  unfold simplify
  split
  · rename_i simple
    exact ⟨n, rfl, simplifies_self simple⟩
  · exact ⟨⟨n.simplifiedDiagram, closed_simplifiedDiagram, wellLabelled_simplifiedDiagram⟩,
      ofDiagram_ok _ _, simplifies_of_simplifiedDiagram rfl⟩

end Automata.NFA
