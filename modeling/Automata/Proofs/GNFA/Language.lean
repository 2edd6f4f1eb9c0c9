import Automata.GNFA.Path
import Automata.Proofs.GNFA.Labels

/-! # The language of a generalized automaton

The words that lead from a state to the accepting one are the least family of languages that is
closed under the labels. Elimination and the construction from a nondeterministic automaton are both
compared by that.
-/

namespace Automata

theorem PairDiagram.checkClosed_ok {d : PairDiagram} (closed : d.Closed) :
    d.checkClosed = .ok ⟨closed⟩ := by
  rw [checkClosed, dif_pos closed.start_mem, dif_pos closed.accept_mem,
    dif_pos closed.start_ne_accept, dif_pos closed.labels_states, dif_pos closed.pair_mem,
    dif_pos closed.start_not_target, dif_pos closed.accept_not_source]

/-- A diagram is closed if its labels other than null are between its states and neither enter the
    start nor leave the accepting state. -/
theorem PairDiagram.closed_of_labels {d : PairDiagram} (start : d.start ∈ d.states)
    (accept : d.accept ∈ d.states) (different : d.start ≠ d.accept)
    (states : d.labels.states = d.states)
    (inside : ∀ p q, d.labels.label p q ≠ .null →
      p ∈ d.states ∧ q ∈ d.states ∧ q ≠ d.start ∧ p ≠ d.accept) : d.Closed where
  start_mem := start
  accept_mem := accept
  start_ne_accept := different
  labels_states := states
  pair_mem := by
    intro k listed
    have label := inside k.1 k.2 (PairLabels.mem_keys_iff.mp listed)
    exact ⟨label.1, label.2.1⟩
  start_not_target := by
    intro entered
    obtain ⟨p, label⟩ := PairLabels.mem_targets.mp entered
    exact (inside p d.start label).2.2.1 rfl
  accept_not_source := by
    intro left
    obtain ⟨q, label⟩ := PairLabels.mem_sources.mp left
    exact (inside d.accept q label).2.2.2 rfl

namespace GNFA

variable {g : GNFA} {p q : State} {u v w : List Char} {d : PairDiagram}

theorem ofDiagram_ok (closed : d.Closed) : ofDiagram d = .ok ⟨d, closed⟩ := by
  rw [ofDiagram, PairDiagram.checkClosed_ok closed]
  rfl

theorem label_inside (label : g.labels.label p q ≠ .null) :
    p ∈ g.states ∧ q ∈ g.states ∧ q ≠ g.start ∧ p ≠ g.accept := by
  have listed := g.closed.pair_mem (p, q) (PairLabels.mem_keys_iff.mpr label)
  refine ⟨listed.1, listed.2, ?_, ?_⟩
  · rintro rfl
    exact g.closed.start_not_target (PairLabels.mem_targets.mpr ⟨p, label⟩)
  · rintro rfl
    exact g.closed.accept_not_source (PairLabels.mem_sources.mpr ⟨q, label⟩)

/-- What the label of a pair matches. -/
def step (g : GNFA) (p q : State) : Language Char := (g.labels.label p q).language g.alphabet

theorem step_eq_zero (null : g.labels.label p q = .null) : g.step p q = 0 := by
  rw [step, null, Regex.language_null]

/-- The words on paths from a state to the accepting one. -/
def wordsFrom (g : GNFA) (p : State) : Language Char := {w | g.Path p w g.accept}

/-- The words on paths from the start to the accepting state. -/
def language (g : GNFA) : Language Char := g.wordsFrom g.start

theorem nil_mem_wordsFrom : [] ∈ g.wordsFrom g.accept := Path.nil

theorem step_mul_wordsFrom_le : g.step p q * g.wordsFrom q ≤ g.wordsFrom p := by
  intro w h
  obtain ⟨u, first, v, rest, rfl⟩ := Language.mem_mul.mp h
  exact Path.cons first rest

/-- A family of languages that is closed under the labels holds all the words that are accepted. -/
theorem wordsFrom_le {F : State → Language Char} (accept : [] ∈ F g.accept)
    (steps : ∀ p q, g.step p q * F q ≤ F p) (p : State) : g.wordsFrom p ≤ F p := by
  intro w path
  change g.Path p w g.accept at path
  generalize target : g.accept = r at path
  induction path with
  | nil => exact target ▸ accept
  | cons first _ ih => exact steps _ _ (Language.append_mem_mul first (ih target))

end GNFA

end Automata
