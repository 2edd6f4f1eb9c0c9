import Automata.DFA.Basic
import Automata.Proofs.NFA.Basic
import Automata.Proofs.Table

/-! # Runs of deterministic automata

Over the alphabet a run never gets stuck, so that acceptance is decided by the one state it ends in.
As a nondeterministic automaton, a deterministic one has exactly its runs as paths.
-/

namespace Automata

theorem MoveTable.mem_edgeSet {t : MoveTable} {p q : State} {a : Symbol} :
    ⟨p, a, q⟩ ∈ t.edgeSet ↔ t.get? (p, a) = some q := by
  rw [edgeSet, SortedSet.mem_ofList, Table.get?_eq_some_iff, edges, List.mem_map]
  constructor
  · intro ⟨e, entry, same⟩
    cases same
    exact entry
  · intro entry
    exact ⟨((p, a), q), entry, rfl⟩

theorem MoveTable.mem_labels {t : MoveTable} {a : Symbol} :
    a ∈ t.labels ↔ ∃ p q, t.get? (p, a) = some q := by
  rw [labels, SortedSet.mem_ofList, List.mem_map]
  constructor
  · intro ⟨k, key, same⟩
    obtain ⟨p, b⟩ := k
    obtain rfl : b = a := same
    obtain ⟨q, move⟩ := Table.mem_keys_iff.mp key
    exact ⟨p, q, move⟩
  · intro ⟨p, q, move⟩
    exact ⟨(p, a), Table.mem_keys_iff.mpr ⟨q, move⟩, rfl⟩

namespace DFA

variable {d : DFA} {D : MoveDiagram} {p q : State} {c : Char} {u v w : List Char}

/-- A diagram that passes the checks is an automaton as it stands. -/
theorem ofDiagram_eq (closed : D.diagram.Closed)
    (labels : ∀ a ∈ D.moves.labels.toList, a ∈ D.alphabet.symbols)
    (total : D.undefinedMove? = none) : ofDiagram D = .ok ⟨D, closed, labels, total⟩ := by
  rw [ofDiagram, StateDiagram.checkClosed_ok closed]
  simp only [bind, Except.bind]
  rw [dif_pos labels]
  split
  · rfl
  · rename_i undefined
    rw [total] at undefined
    cases undefined

/-- A diagram is an automaton if its states suffice, and there is exactly one move for every state
    and every character of the alphabet. -/
theorem ofDiagram_ok (start : D.start ∈ D.states) (accepting : ∀ p ∈ D.accepting, p ∈ D.states)
    (moves : ∀ p a q, D.moves.get? (p, a) = some q →
      p ∈ D.states ∧ a ∈ D.alphabet.symbols ∧ q ∈ D.states)
    (total : ∀ p ∈ D.states, ∀ c ∈ D.alphabet, ∃ q, D.moves.get? (p, Symbol.ofChar c) = some q) :
    ∃ d, ofDiagram D = .ok d ∧ d.toMoveDiagram = D := by
  have closed : D.diagram.Closed := by
    refine ⟨start, accepting, fun e edge => ?_, fun e edge => ?_⟩
    · exact (moves _ _ _ (MoveTable.mem_edgeSet.mp edge)).1
    · exact (moves _ _ _ (MoveTable.mem_edgeSet.mp edge)).2.2
  have labels : ∀ a ∈ D.moves.labels.toList, a ∈ D.alphabet.symbols := by
    intro a used
    obtain ⟨p, q, move⟩ := MoveTable.mem_labels.mp used
    exact (moves p a q move).2.1
  have none : D.undefinedMove? = none := by
    rw [MoveDiagram.undefinedMove?, List.find?_eq_none]
    intro k member
    obtain ⟨p, state, pair⟩ := List.mem_flatMap.mp member
    obtain ⟨c, letter, rfl⟩ := List.mem_map.mp pair
    obtain ⟨q, move⟩ := total p state c letter
    simp [move]
  exact ⟨_, ofDiagram_eq closed labels none, rfl⟩

theorem next_ok (state : p ∈ d.states) (letter : c ∈ d.alphabet) :
    ∃ q ∈ d.states, d.next p c = some q := by
  have defined := List.find?_eq_none.mp d.total (p, c)
    (List.mem_flatMap.mpr ⟨p, state, List.mem_map.mpr ⟨c, letter, rfl⟩⟩)
  cases move : d.next p c with
  | none =>
      refine absurd ?_ defined
      rw [show d.moves.get? (p, Symbol.ofChar c) = none from move]
      rfl
  | some q => exact ⟨q, d.closed.target_mem _ (MoveTable.mem_edgeSet.mpr move), rfl⟩

theorem label_letter (move : d.next p c = some q) : c ∈ d.alphabet :=
  Alphabet.ofChar_mem_symbols.mp
    (d.label_mem _ (MoveTable.mem_labels.mpr ⟨p, q, move⟩))

@[simp] theorem run_nil : d.run p [] = some p := rfl

theorem run_cons : d.run p (c :: w) = (d.next p c).bind fun q => d.run q w := rfl

theorem run_ok (state : p ∈ d.states) (covered : ∀ c ∈ w, c ∈ d.alphabet) :
    ∃ q ∈ d.states, d.run p w = some q := by
  induction w generalizing p with
  | nil => exact ⟨p, state, rfl⟩
  | cons c w ih =>
      obtain ⟨q, next, move⟩ := next_ok state (covered c List.mem_cons_self)
      rw [run_cons, move]
      exact ih next fun b member => covered b (List.mem_cons_of_mem c member)

theorem recognizesFrom_nil : d.recognizesFrom p [] = decide (p ∈ d.accepting) := rfl

theorem recognizesFrom_cons (move : d.next p c = some q) :
    d.recognizesFrom p (c :: w) = d.recognizesFrom q w := by
  rw [recognizesFrom, run_cons, move]
  rfl

theorem recognizesFrom_iff :
    d.recognizesFrom p w = true ↔ ∃ q ∈ d.accepting, d.run p w = some q := by
  rw [recognizesFrom, Option.any_eq_true]
  constructor
  · intro ⟨q, run, final⟩
    exact ⟨q, of_decide_eq_true final, run⟩
  · intro ⟨q, final, run⟩
    exact ⟨q, run, decide_eq_true final⟩

/-- A character from elsewhere leads nowhere. -/
theorem recognizesFrom_foreign (foreign : ¬∀ c ∈ w, c ∈ d.alphabet) :
    d.recognizesFrom p w = false := by
  refine Bool.eq_false_iff.mpr fun recognizes => foreign ?_
  obtain ⟨q, _, run⟩ := recognizesFrom_iff.mp recognizes
  clear recognizes foreign
  induction w generalizing p with
  | nil => simp
  | cons c w ih =>
      rw [run_cons] at run
      obtain ⟨r, move, rest⟩ := Option.bind_eq_some_iff.mp run
      exact List.forall_mem_cons.mpr ⟨label_letter move, ih rest⟩

theorem accepts_eq {word : String} (covered : ∀ c ∈ word.toList, c ∈ d.alphabet) :
    d.accepts word = .ok (d.recognizes word.toList) := by
  rw [accepts, Alphabet.check_ok covered]
  rfl

/-- Automata of one alphabet that recognize the same words over it accept alike. -/
theorem accepts_eq_of_recognizes {n : NFA} (alphabet : d.alphabet = n.alphabet)
    (same : ∀ w : List Char, (∀ c ∈ w, c ∈ n.alphabet) → d.recognizes w = n.recognizes w)
    (word : String) : d.accepts word = n.accepts word := by
  by_cases covered : ∀ c ∈ word.toList, c ∈ n.alphabet
  · rw [accepts_eq (alphabet ▸ covered), NFA.accepts_eq covered, same _ covered]
  · obtain ⟨_, failure, _⟩ := Alphabet.check_error covered
    rw [accepts, NFA.accepts, alphabet, failure]
    rfl

/-- Conversely, what accepts alike recognizes alike over the alphabet. -/
theorem recognizes_eq_of_accepts {n : NFA} (alphabet : d.alphabet = n.alphabet)
    (same : ∀ word, d.accepts word = n.accepts word) (covered : ∀ c ∈ w, c ∈ n.alphabet) :
    d.recognizes w = n.recognizes w := by
  have covered : ∀ c ∈ (String.ofList w).toList, c ∈ n.alphabet := by
    rwa [String.toList_ofList]
  have answers := same (String.ofList w)
  rw [accepts_eq (alphabet ▸ covered), NFA.accepts_eq covered, String.toList_ofList] at answers
  exact Except.ok.inj answers

theorem accepts_congr {e : DFA} (alphabet : e.alphabet = d.alphabet)
    (same : ∀ w : List Char, (∀ c ∈ w, c ∈ d.alphabet) → e.recognizes w = d.recognizes w)
    (word : String) : e.accepts word = d.accepts word := by
  by_cases covered : ∀ c ∈ word.toList, c ∈ d.alphabet
  · rw [accepts_eq covered, accepts_eq (alphabet ▸ covered), same _ covered]
  · obtain ⟨_, failure, _⟩ := Alphabet.check_error covered
    rw [accepts, accepts, alphabet, failure]
    rfl

/-! ### As a nondeterministic automaton -/

theorem toNFA_ok : ∃ n, d.toNFA = .ok n ∧ n.toStateDiagram = d.diagram := by
  have labels : NFA.WellLabelled d.diagram := by
    intro e edge
    have move := MoveTable.mem_edgeSet.mp edge
    exact .inr (d.label_mem _ (MoveTable.mem_labels.mpr ⟨_, _, move⟩))
  exact ⟨_, NFA.ofDiagram_ok d.closed labels, rfl⟩

variable {n : NFA}

theorem mem_edges_iff (diagram : n.toStateDiagram = d.diagram) {a : Symbol} :
    ⟨p, a, q⟩ ∈ n.edges ↔ d.moves.get? (p, a) = some q := by
  rw [diagram]
  exact MoveTable.mem_edgeSet

theorem path_iff_run (diagram : n.toStateDiagram = d.diagram) :
    n.Path p w q ↔ d.run p w = some q := by
  constructor
  · intro path
    induction path with
    | nil => rfl
    | epsilon edge _ _ =>
        have move := (mem_edges_iff diagram).mp edge
        have letter := d.label_mem _ (MoveTable.mem_labels.mpr ⟨_, _, move⟩)
        obtain ⟨c, member, same⟩ := Alphabet.mem_symbols.mp letter
        exact absurd (Symbol.ofChar_injective same.symm) (Alphabet.ne_epsilon member)
    | cons _ edge _ ih =>
        have move := (mem_edges_iff diagram).mp edge
        rw [run_cons, show d.next _ _ = some _ from move]
        exact ih
  · intro run
    induction w generalizing p with
    | nil =>
        cases run
        exact .nil
    | cons c w ih =>
        rw [run_cons] at run
        obtain ⟨r, move, rest⟩ := Option.bind_eq_some_iff.mp run
        exact .cons (Alphabet.ne_epsilon (label_letter move)) ((mem_edges_iff diagram).mpr move)
          (ih rest)

/-- A deterministic automaton and its nondeterministic copy accept alike. -/
theorem toNFA_accepts (diagram : n.toStateDiagram = d.diagram) (word : String) :
    n.accepts word = d.accepts word := by
  have alphabet : d.alphabet = n.alphabet := by rw [diagram]; rfl
  refine (accepts_eq_of_recognizes alphabet (fun w covered => ?_) word).symm
  have letters : ∀ c ∈ w, c ≠ 'ε' := fun c member => Alphabet.ne_epsilon (covered c member)
  rw [Bool.eq_iff_iff, NFA.recognizes_iff letters, recognizes, recognizesFrom_iff]
  simp only [NFA.HasPath, path_iff_run diagram, diagram]
  rfl

end DFA

end Automata
