import Automata.Proofs.DFA.Minimize

/-! # Reduced automata

An automaton is reduced when it has no state that cannot be reached and no two states that no word
tells apart. Reduced automata of one language differ in the names of their states only, and no
automaton of that language has fewer states.
-/

namespace Automata.DFA

open StateDiagram

variable {d e : DFA} {p q r p' q' : State} {c : Char}

/-! ### States of two automata -/

/-- Every word over the alphabet leads a state of one automaton and a state of another one both to
    an accepting state or neither. -/
def Alike (d e : DFA) (p q : State) : Prop :=
  ∀ w : List Char, (∀ c ∈ w, c ∈ d.alphabet) → d.recognizesFrom p w = e.recognizesFrom q w

namespace Alike

theorem symm (alphabet : d.alphabet = e.alphabet) (alike : d.Alike e p q) : e.Alike d q p :=
  fun w covered => (alike w (alphabet ▸ covered)).symm

theorem left (first : d.Alike e p r) (second : d.Alike e q r) : d.Equivalent p q :=
  fun w covered => (first w covered).trans (second w covered).symm

theorem right (alphabet : d.alphabet = e.alphabet) (first : d.Alike e r p)
    (second : d.Alike e r q) : e.Equivalent p q :=
  (first.symm alphabet).left (second.symm alphabet)

theorem accepting (alike : d.Alike e p q) : p ∈ d.accepting ↔ q ∈ e.accepting := by
  have ends := alike [] (by simp)
  rw [recognizesFrom_nil, recognizesFrom_nil] at ends
  exact decide_eq_decide.mp ends

/-- Reading a character keeps states alike. -/
theorem next (alike : d.Alike e p q) (letter : c ∈ d.alphabet) (first : d.next p c = some p')
    (second : e.next q c = some q') : d.Alike e p' q' := by
  intro w covered
  rw [← recognizesFrom_cons first, ← recognizesFrom_cons second]
  apply alike
  intro b member
  rcases List.mem_cons.mp member with rfl | later
  · exact letter
  · exact covered b later

/-- States are alike if they are related in a way that moves keep and that the accepting states
    respect. -/
theorem of_bisimulation {R : State → State → Prop}
    (ends : ∀ p q, R p q → (p ∈ d.accepting ↔ q ∈ e.accepting))
    (moves : ∀ p q, R p q → ∀ c ∈ d.alphabet,
      ∃ p' q', d.next p c = some p' ∧ e.next q c = some q' ∧ R p' q')
    (related : R p q) : d.Alike e p q := by
  intro w covered
  induction w generalizing p q with
  | nil =>
      rw [recognizesFrom_nil, recognizesFrom_nil]
      exact decide_eq_decide.mpr (ends p q related)
  | cons c w ih =>
      obtain ⟨p', q', first, second, related'⟩ := moves p q related c (covered c List.mem_cons_self)
      rw [recognizesFrom_cons first, recognizesFrom_cons second]
      exact ih related' fun b later => covered b (List.mem_cons_of_mem c later)

/-- If the starts are alike, every state that is reached is like some state of the other one. -/
theorem exists_of_reaches (alphabet : d.alphabet = e.alphabet) (start : d.Alike e d.start e.start)
    (reaches : Worklist.Reaches d.successors d.start p) : ∃ q ∈ e.states, d.Alike e p q := by
  induction reaches with
  | refl => exact ⟨e.start, e.closed.start_mem, start⟩
  | tail _ step ih =>
      obtain ⟨c, letter, move⟩ := mem_successors.mp step
      obtain ⟨q, state, alike⟩ := ih
      obtain ⟨q', state', move'⟩ := next_ok state (alphabet ▸ letter)
      exact ⟨q', state', alike.next letter move move'⟩

end Alike

/-- Automata that accept the same words over one alphabet have starts that are alike. -/
theorem alike_start (alphabet : d.alphabet = e.alphabet)
    (same : ∀ word, d.accepts word = .ok true ↔ e.accepts word = .ok true) :
    d.Alike e d.start e.start := by
  intro w covered
  have here := same (String.ofList w)
  rw [accepts_eq (by simpa using covered), accepts_eq (by simpa [← alphabet] using covered)] at here
  simpa [recognizes] using here

theorem accepts_of_alike (alphabet : d.alphabet = e.alphabet)
    (start : d.Alike e d.start e.start) (word : String) : d.accepts word = e.accepts word :=
  accepts_congr alphabet (fun w covered => start w (alphabet ▸ covered)) word

/-! ### Reduced automata -/

theorem mem_diagram_edges {a : Symbol} :
    ⟨p, a, q⟩ ∈ d.diagram.edges ↔ ∃ c ∈ d.alphabet, a = Symbol.ofChar c ∧ d.next p c = some q := by
  refine MoveTable.mem_edgeSet.trans ⟨fun move => ?_, ?_⟩
  · obtain ⟨c, letter, rfl⟩ :=
      Alphabet.mem_symbols.mp (d.label_mem a (MoveTable.mem_labels.mpr ⟨p, q, move⟩))
    exact ⟨c, letter, rfl, move⟩
  · rintro ⟨c, _, rfl, move⟩
    exact move

theorem mem_states_of_next (move : d.next p c = some q) : p ∈ d.states ∧ q ∈ d.states :=
  have edge := MoveTable.mem_edgeSet.mpr move
  ⟨d.closed.source_mem _ edge, d.closed.target_mem _ edge⟩

/-- Every state is like the one that an isomorphism takes it to. -/
theorem alike_of_isomorphism {f : State → State} (iso : Isomorphism f d.diagram e.diagram)
    (state : p ∈ d.states) : d.Alike e p (f p) := by
  -- being a state and its image is a bisimulation
  refine Alike.of_bisimulation (R := fun p q => p ∈ d.states ∧ q = f p) ?_ ?_ ⟨state, rfl⟩
  · rintro p _ ⟨state, rfl⟩
    have finals : f p ∈ e.accepting ↔ ∃ q ∈ d.accepting, f q = f p := by
      rw [← SortedSet.mem_map]
      exact iso.accepting_eq ▸ Iff.rfl
    rw [finals]
    constructor
    · exact fun final => ⟨p, final, rfl⟩
    · rintro ⟨q, final, same⟩
      exact iso.injective q (d.closed.accepting_mem q final) p state same ▸ final
  · rintro p _ ⟨state, rfl⟩ c letter
    obtain ⟨q, state', move⟩ := next_ok state letter
    have edge : renamedEdge f ⟨p, .ofChar c, q⟩ ∈ e.diagram.edges := by
      rw [← iso.edges_eq, SortedSet.mem_map]
      exact ⟨_, mem_diagram_edges.mpr ⟨c, letter, rfl, move⟩, rfl⟩
    exact ⟨q, f q, move, MoveTable.mem_edgeSet.mp edge, state', rfl⟩

/-- Isomorphic automata accept the same words. -/
theorem accepts_of_isomorphism {f : State → State} (iso : Isomorphism f d.diagram e.diagram)
    (word : String) : e.accepts word = d.accepts word := by
  have start : d.Alike e d.start (f d.start) := alike_of_isomorphism iso d.closed.start_mem
  rw [show f d.start = e.start from iso.start_eq] at start
  exact (accepts_of_alike iso.alphabet_eq start word).symm

/-- All states are reached, and different states are told apart. -/
structure Reduced (d : DFA) : Prop where
  reached : ∀ p ∈ d.states, Worklist.Reaches d.successors d.start p
  eq_of_equivalent : ∀ p ∈ d.states, ∀ q ∈ d.states, d.Equivalent p q → p = q

/-- Each state is given a state of another automaton that is like it, and no two are given the
    same. -/
structure Match (d e : DFA) (f : State → State) : Prop where
  mem : ∀ p ∈ d.states, f p ∈ e.states
  alike : ∀ p ∈ d.states, d.Alike e p (f p)
  injective : ∀ p ∈ d.states, ∀ q ∈ d.states, f p = f q → p = q

theorem Reduced.exists_match (reduced : d.Reduced) (alphabet : d.alphabet = e.alphabet)
    (start : d.Alike e d.start e.start) : ∃ f, Match d e f := by
  have matched : ∀ p, ∃ q, p ∈ d.states → q ∈ e.states ∧ d.Alike e p q := by
    intro p
    by_cases state : p ∈ d.states
    · obtain ⟨q, state', alike⟩ := Alike.exists_of_reaches alphabet start (reduced.reached p state)
      exact ⟨q, fun _ => ⟨state', alike⟩⟩
    · exact ⟨p, fun member => absurd member state⟩
  choose f found using matched
  refine ⟨f, fun p hp => (found p hp).1, fun p hp => (found p hp).2, fun p hp q hq same => ?_⟩
  have first := (found p hp).2
  rw [same] at first
  exact reduced.eq_of_equivalent p hp q hq (first.left (found q hq).2)

/-- No automaton that accepts the same words has fewer states. -/
theorem Reduced.size_le (reduced : d.Reduced) (alphabet : d.alphabet = e.alphabet)
    (start : d.Alike e d.start e.start) : d.states.size ≤ e.states.size := by
  obtain ⟨f, found⟩ := reduced.exists_match alphabet start
  have nodup : (d.states.toList.map f).Nodup :=
    List.Nodup.map_on found.injective d.states.nodup_toList
  have inside : d.states.toList.map f ⊆ e.states.toList := by
    intro q member
    obtain ⟨p, state, rfl⟩ := List.mem_map.mp member
    exact found.mem p state
  simpa [SortedSet.size] using (List.subperm_of_subset nodup inside).length_le

/-! ### Matches of reduced automata -/

namespace Match

variable {f : State → State} (found : Match d e f) (reduced : e.Reduced)
  (alphabet : d.alphabet = e.alphabet) (start : d.Alike e d.start e.start)

include found reduced alphabet

/-- No other state of a reduced automaton is like a state than the one that it is given. -/
theorem eq_of_alike (hp : p ∈ d.states) (hq : q ∈ e.states) (alike : d.Alike e p q) : f p = q :=
  reduced.eq_of_equivalent _ (found.mem p hp) q hq ((found.alike p hp).right alphabet alike)

theorem next (move : d.next p c = some q) : e.next (f p) c = some (f q) := by
  obtain ⟨state, state'⟩ := mem_states_of_next move
  have letter := label_letter move
  obtain ⟨r, reached, move'⟩ := next_ok (found.mem p state) (alphabet ▸ letter)
  have alike := (found.alike p state).next letter move move'
  rw [move', found.eq_of_alike reduced alphabet state' reached alike]

include start

theorem onto (hq : q ∈ e.states) : ∃ p ∈ d.states, f p = q := by
  obtain ⟨p, state, alike⟩ :=
    Alike.exists_of_reaches alphabet.symm (start.symm alphabet) (reduced.reached q hq)
  exact ⟨p, state, found.eq_of_alike reduced alphabet state hq (alike.symm alphabet.symm)⟩

theorem accepting_eq : d.accepting.map f = e.accepting := by
  ext q
  rw [SortedSet.mem_map]
  constructor
  · intro ⟨p, final, same⟩
    subst same
    exact (found.alike p (d.closed.accepting_mem p final)).accepting.mp final
  · intro final
    obtain ⟨p, state, rfl⟩ := found.onto reduced alphabet start (e.closed.accepting_mem q final)
    exact ⟨p, (found.alike p state).accepting.mpr final, rfl⟩

theorem edges_eq : d.diagram.edges.map (renamedEdge f) = e.diagram.edges := by
  ext ⟨p', a, q'⟩
  rw [SortedSet.mem_map, mem_diagram_edges]
  constructor
  · intro ⟨⟨p, b, q⟩, edge, same⟩
    cases same
    obtain ⟨c, letter, label, move⟩ := mem_diagram_edges.mp edge
    exact ⟨c, alphabet ▸ letter, label, found.next reduced alphabet move⟩
  · intro ⟨c, letter, label, move⟩
    obtain ⟨p, state, rfl⟩ := found.onto reduced alphabet start (mem_states_of_next move).1
    obtain ⟨q, _, move'⟩ := next_ok state (alphabet ▸ letter)
    have same := found.next reduced alphabet move'
    rw [move] at same
    obtain rfl := Option.some_inj.mp same
    exact ⟨⟨p, a, q⟩, mem_diagram_edges.mpr ⟨c, alphabet ▸ letter, label, move'⟩, rfl⟩

theorem isomorphism : Isomorphism f d.diagram e.diagram where
  alphabet_eq := alphabet
  injective := found.injective
  states_eq := by
    ext q
    rw [SortedSet.mem_map]
    exact ⟨fun ⟨p, state, same⟩ => same ▸ found.mem p state, found.onto reduced alphabet start⟩
  start_eq := found.eq_of_alike reduced alphabet d.closed.start_mem e.closed.start_mem start
  accepting_eq := found.accepting_eq reduced alphabet start
  edges_eq := found.edges_eq reduced alphabet start

end Match

/-- Reduced automata that accept the same words are isomorphic. -/
theorem Reduced.isomorphic (first : d.Reduced) (second : e.Reduced)
    (alphabet : d.alphabet = e.alphabet) (start : d.Alike e d.start e.start) :
    Isomorphic d.diagram e.diagram := by
  obtain ⟨f, found⟩ := first.exists_match alphabet start
  exact ⟨f, found.isomorphism second alphabet start⟩

end Automata.DFA
