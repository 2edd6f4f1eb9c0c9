import Automata.Proofs.NFA.Scan
import Automata.Proofs.NFA.Simplify

/-! # What simplification leaves

The start, the accepting states and the states that read a character stay, and the automaton behaves
as before. If it has no dead ends, then neither has the simplified one, and nothing more can be left
out of that.
-/

namespace Automata.NFA

variable {m n : NFA} {p : State}

theorem stays_iff : ¬ n.isRedundant p = true ↔ p = n.start ∨ p ∈ n.accepting ∨
    ∃ e ∈ n.edges, e.source = p ∧ e.label ≠ Symbol.epsilon := by
  constructor
  · intro stays
    apply Classical.byContradiction
    intro none
    obtain ⟨notStart, rest⟩ := not_or.mp none
    obtain ⟨notFinal, waits⟩ := not_or.mp rest
    refine stays (isRedundant_iff.mpr ⟨notStart, notFinal, fun e edge leaves => ?_⟩)
    exact Classical.byContradiction fun reads => waits ⟨e, edge, leaves, reads⟩
  · intro reason goes
    obtain ⟨notStart, notFinal, waits⟩ := isRedundant_iff.mp goes
    rcases reason with first | final | ⟨e, edge, leaves, reads⟩
    · exact notStart first
    · exact notFinal final
    · exact reads (waits e edge leaves)

/-- Simplification always succeeds and keeps the behaviour: the answers for words, those for parts
    of words, the start, the accepting states and the alphabet. Of the other states those are left
    that read a character. -/
theorem simplify_keeps_behaviour (n : NFA) : ∃ m, n.simplify = .ok m ∧ m.start = n.start ∧
    m.accepting = n.accepting ∧ m.alphabet = n.alphabet ∧
    (∀ p, p ∈ m.states ↔ p ∈ n.states ∧ (p = n.start ∨ p ∈ n.accepting ∨
      ∃ e ∈ n.edges, e.source = p ∧ e.label ≠ Symbol.epsilon)) ∧
    (∀ word, m.accepts word = n.accepts word) ∧
    ∀ (word : String) (start : Nat),
      m.acceptableSubstrings word start = n.acceptableSubstrings word start := by
  obtain ⟨m, run, simplifies⟩ := n.simplify_spec
  refine ⟨m, run, simplifies.start, simplifies.accepting, simplifies.alphabet, fun p => ?_,
    fun word => accepts_congr simplifies.alphabet simplifies.language,
    fun word start => acceptableSubstrings_congr simplifies.alphabet simplifies.language⟩
  rw [simplifies.states, stays_iff]

/-! ### Without dead ends -/

theorem Simplifies.isCoaccessible (simplifies : m.Simplifies n) (coaccessible : n.IsCoaccessible) :
    m.IsCoaccessible := by
  intro p member
  obtain ⟨old, stays⟩ := (simplifies.states p).mp member
  obtain ⟨w, accepted⟩ := coaccessible p old
  have accepted : w ∈ m.wordsFrom p := by
    rw [simplifies.wordsFrom p stays]
    exact accepted
  exact ⟨w, accepted⟩

/-- Where every state leads to an accepting one, what read a character still does. -/
theorem Simplifies.stays (simplifies : m.Simplifies n) (coaccessible : n.IsCoaccessible)
    (member : p ∈ m.states) : ¬ m.isRedundant p = true := by
  obtain ⟨_, stays⟩ := (simplifies.states p).mp member
  rw [stays_iff] at stays ⊢
  rw [simplifies.start, simplifies.accepting]
  refine stays.imp_right (Or.imp_right ?_)
  rintro ⟨e, edge, rfl, reads⟩
  obtain ⟨w, accepted⟩ := coaccessible e.target (n.closed.target_mem e edge)
  obtain ⟨d, kept, source, label⟩ := simplifies.reads e edge reads w accepted
  exact ⟨d, kept, source, label ▸ reads⟩

/-- Without dead ends one simplification is enough: every state that is left is the start, accepting
    or reads a character, every state still leads to an accepting one, and simplifying again changes
    nothing. -/
theorem simplify_normal (coaccessible : n.IsCoaccessible) : ∃ m, n.simplify = .ok m ∧
    (∀ p ∈ m.states, p ≠ m.start → p ∉ m.accepting →
      ∃ e ∈ m.edges, e.source = p ∧ e.label ≠ Symbol.epsilon) ∧
    m.IsCoaccessible ∧ m.isSimple = true ∧ m.simplify = .ok m := by
  obtain ⟨m, run, simplifies⟩ := n.simplify_spec
  have simple : m.isSimple = true := isSimple_iff.mpr fun p => simplifies.stays coaccessible
  refine ⟨m, run, fun p member notStart notFinal => ?_, simplifies.isCoaccessible coaccessible,
    simple, if_pos simple⟩
  have reason := stays_iff.mp (simplifies.stays coaccessible member)
  exact (reason.resolve_left notStart).resolve_left notFinal

/-- A circle of states that only wait lies behind two states that read. -/
theorem simplify_normal_circle :
    let n : NFA := {
      states := .ofList [⟨"p"⟩, ⟨"q"⟩, ⟨"r"⟩, ⟨"s"⟩, ⟨"t"⟩]
      alphabet := ⟨.ofList ['a', 'b'], by decide, by decide⟩
      edges := .ofList [⟨⟨"p"⟩, "a", ⟨"q"⟩⟩, ⟨⟨"q"⟩, Symbol.epsilon, ⟨"r"⟩⟩,
        ⟨⟨"r"⟩, Symbol.epsilon, ⟨"q"⟩⟩, ⟨⟨"r"⟩, Symbol.epsilon, ⟨"s"⟩⟩,
        ⟨⟨"r"⟩, Symbol.epsilon, ⟨"t"⟩⟩, ⟨⟨"s"⟩, "b", ⟨"q"⟩⟩]
      start := ⟨"p"⟩
      accepting := .ofList [⟨"t"⟩]
      closed := ⟨by decide +kernel, by decide +kernel, by decide +kernel, by decide +kernel⟩
      label_mem := by decide +kernel }
    n.IsCoaccessible ∧ n.isSimple = false ∧
      ∃ m, n.simplify = .ok m ∧ m.IsCoaccessible ∧ m.simplify = .ok m := by
  intro n
  have waits : n.Path ⟨"r"⟩ [] ⟨"t"⟩ := .epsilon (by decide +kernel) .nil
  have around : n.Path ⟨"q"⟩ [] ⟨"t"⟩ := .epsilon (by decide +kernel) waits
  have coaccessible : n.IsCoaccessible := by
    intro p member
    have member : p ∈ [⟨"p"⟩, ⟨"q"⟩, ⟨"r"⟩, ⟨"s"⟩, ⟨"t"⟩] := SortedSet.mem_ofList.mp member
    have final : (⟨"t"⟩ : State) ∈ n.accepting := by decide +kernel
    simp only [List.mem_cons, List.not_mem_nil, or_false] at member
    rcases member with rfl | rfl | rfl | rfl | rfl
    · exact ⟨['a'], _, final, .cons (by decide) (by decide +kernel) around⟩
    · exact ⟨[], _, final, around⟩
    · exact ⟨[], _, final, waits⟩
    · exact ⟨['b'], _, final, .cons (by decide) (by decide +kernel) around⟩
    · exact ⟨[], _, final, .nil⟩
  obtain ⟨m, run, _, still, _, again⟩ := simplify_normal coaccessible
  exact ⟨coaccessible, by decide +kernel, m, run, still, again⟩

end Automata.NFA
