import Automata.Proofs.DFA.Reduced

/-! # The minimal automaton is canonical

Minimization yields a reduced automaton, and it leaves a reduced automaton as it is if that one
lists its moves state by state. So the minimal automata of one language differ in names only, none
has more states than any other automaton of the language, and minimizing twice is minimizing once.
-/

namespace Automata.DFA

open StateDiagram

variable {d e : DFA} {p q : State} {c : Char} {m : Renaming}

/-! ### Minimal automata are reduced -/

/-- An automaton consists of the representatives of the states of another one that are reached. -/
structure Represented (d e : DFA) (m : Renaming) : Prop where
  represents : d.Represents d.reachable m
  diagram : e.toMoveDiagram = d.diagramOn d.reachable.toList m

namespace Represented

theorem alphabet (h : d.Represented e m) : e.alphabet = d.alphabet := by
  rw [h.diagram, diagramOn]

theorem start (h : d.Represented e m) : e.start = m.rename d.start := by
  rw [h.diagram, diagramOn]

theorem mem_states (h : d.Represented e m) :
    q ∈ e.states ↔ ∃ p ∈ d.reachable, q = m.rename p := by
  rw [h.diagram]
  exact h.represents.describes.states q

theorem next_rename (h : d.Represented e m) (inside : p ∈ d.reachable) (letter : c ∈ d.alphabet) :
    e.next (m.rename p) c = some (m.rename (d.after p c)) :=
  h.represents.describes.next_name
    (h.represents.sound d.sealed_reachable d.start_mem_reachable) h.diagram inside letter

theorem after_rename (h : d.Represented e m) (inside : p ∈ d.reachable) (letter : c ∈ d.alphabet) :
    e.after (m.rename p) c = m.rename (d.after p c) := by
  rw [DFA.after, h.next_rename inside letter, Option.getD_some]

theorem reaches_rename (h : d.Represented e m)
    (reaches : Worklist.Reaches d.successors d.start p) :
    Worklist.Reaches e.successors e.start (m.rename p) := by
  induction reaches with
  | refl => exact h.start ▸ .refl
  | @tail p q before step ih =>
      obtain ⟨c, letter, move⟩ := mem_successors.mp step
      have after : d.after p c = q := by rw [DFA.after, move, Option.getD_some]
      have move' := h.next_rename (mem_reachable.mpr before) letter
      rw [after] at move'
      exact .tail ih (mem_successors.mpr ⟨c, h.alphabet ▸ letter, move'⟩)

theorem reduced (h : d.Represented e m) : e.Reduced := by
  constructor
  · intro q state
    obtain ⟨p, inside, rfl⟩ := h.mem_states.mp state
    exact h.reaches_rename (mem_reachable.mp inside)
  · intro q state r state' same
    obtain ⟨p, inside, rfl⟩ := h.mem_states.mp state
    obtain ⟨s, inside', rfl⟩ := h.mem_states.mp state'
    apply h.represents.rename_eq p inside s inside'
    intro w covered
    rw [← recognizesFrom_rename h.represents d.sealed_reachable d.start_mem_reachable h.diagram
        covered inside,
      ← recognizesFrom_rename h.represents d.sealed_reachable d.start_mem_reachable h.diagram
        covered inside']
    exact same w (h.alphabet ▸ covered)

end Represented

/-! ### Minimizing twice -/

/-- The moves out of a state, character by character. -/
def row (d : DFA) (p : State) : List ((State × Symbol) × State) :=
  d.alphabet.characters.toList.map fun c => ((p, Symbol.ofChar c), d.after p c)

theorem reachable_of_reduced (reduced : d.Reduced) : d.reachable = d.states := by
  ext p
  exact ⟨fun member => mem_states_of_reaches (mem_reachable.mp member),
    fun state => mem_reachable.mpr (reduced.reached p state)⟩

/-- The quotient of a reduced automaton is itself, but for the order in which its moves are kept. -/
theorem diagramOn_of_fixed (represents : d.Represents d.states m) (enclosed : d.Sealed d.states)
    (fixed : ∀ p ∈ d.states, m.rename p = p) : d.diagramOn d.states.toList m =
      { d.toMoveDiagram with moves := .ofList (d.states.toList.flatMap d.row) } := by
  have states : SortedSet.ofList m.values = d.states := by
    ext q
    rw [SortedSet.mem_ofList, represents.mem_values]
    constructor
    · rintro ⟨p, state, rfl⟩
      rwa [fixed p state]
    · intro state
      exact ⟨q, state, (fixed q state).symm⟩
  have rows : ∀ p ∈ d.states.toList,
      d.alphabet.characters.toList.map (d.classEntry m p) = d.row p := by
    intro p state
    apply List.map_congr_left
    intro c letter
    rw [classEntry, fixed p state, fixed _ (enclosed.after state letter).1]
  have accepting : SortedSet.ofList
      ((d.states.toList.filter fun p => decide (p ∈ d.accepting)).map m.rename) = d.accepting := by
    ext q
    rw [SortedSet.mem_ofList, List.mem_map]
    constructor
    · rintro ⟨p, member, rfl⟩
      obtain ⟨state, final⟩ := List.mem_filter.mp member
      rw [fixed p state]
      exact of_decide_eq_true final
    · intro final
      have state := d.closed.accepting_mem q final
      exact ⟨q, List.mem_filter.mpr ⟨state, decide_eq_true final⟩, fixed q state⟩
  rw [diagramOn, states, accepting, fixed d.start d.closed.start_mem, List.map_congr_left rows,
    ← List.flatMap_def]

theorem minimize_of_reduced (reduced : d.Reduced) : d.minimize = ofDiagram
    { d.toMoveDiagram with moves := .ofList (d.states.toList.flatMap d.row) } := by
  obtain ⟨m, sets, groups, minimizes, diagram, _⟩ := d.minimize_ok
  have enclosed := d.sealed_reachable
  rw [reachable_of_reduced reduced] at enclosed groups diagram
  have fixed : ∀ p ∈ d.states, (elect sets).rename p = p := by
    intro p state
    obtain ⟨member, same⟩ := groups.rename_mem state
    exact reduced.eq_of_equivalent _ member p state same
  rw [diagramOn_of_fixed groups.represents enclosed fixed] at diagram
  rw [minimizes, ← diagram, ofDiagram_eq m.closed m.label_mem m.total]

theorem nodup_keys_rows {l : List State} (nodup : l.Nodup) :
    ((l.flatMap d.row).map Prod.fst).Nodup := by
  have keys : (l.flatMap d.row).map Prod.fst = l.product d.alphabet.symbols := by
    simp only [List.map_flatMap, row, List.map_map, List.product, Alphabet.symbols]
    rfl
  rw [keys]
  refine nodup.product (List.Nodup.map ?_ d.alphabet.characters.nodup_toList)
  intro a b same
  exact Symbol.ofChar_injective same

theorem Represented.states_eq (h : d.Represented e m)
    (inside : ∀ p ∈ d.reachable, m.rename p ∈ d.reachable)
    (idempotent : ∀ p ∈ d.reachable, m.rename (m.rename p) = m.rename p) :
    e.states = d.reachable.filter fun p => decide (m.rename p = p) := by
  ext q
  rw [h.mem_states, SortedSet.mem_filter, decide_eq_true_eq]
  constructor
  · rintro ⟨p, member, rfl⟩
    exact ⟨inside p member, idempotent p member⟩
  · intro ⟨member, fixed⟩
    exact ⟨q, member, fixed.symm⟩

theorem Represented.moves_eq (h : d.Represented e m) :
    e.moves = .ofList (d.reachable.toList.flatMap fun p => e.row (m.rename p)) := by
  have rows : ∀ p ∈ d.reachable.toList,
      d.alphabet.characters.toList.map (d.classEntry m p) = e.row (m.rename p) := by
    intro p member
    rw [row, h.alphabet]
    apply List.map_congr_left
    intro c letter
    rw [classEntry, h.after_rename member letter]
  rw [h.diagram, diagramOn, List.map_congr_left rows, ← List.flatMap_def]

/-- A minimal automaton lists its moves in the order of its states. -/
theorem moves_eq_rows {sets : DisjointSets State} (groups : d.Groups d.reachable sets)
    (h : d.Represented e (elect sets)) : e.moves = .ofList (e.states.toList.flatMap e.row) := by
  have inside : ∀ p ∈ d.reachable, (elect sets).rename p ∈ d.reachable :=
    fun p member => (groups.rename_mem member).1
  have lower : ∀ p ∈ d.reachable, (compare ((elect sets).rename p) p).isLE = true :=
    fun p member => groups.rename_le member member (.refl d p)
  generalize elect sets = m at h inside lower
  have idempotent : ∀ p ∈ d.reachable, m.rename (m.rename p) = m.rename p := fun p member =>
    h.represents.rename_eq _ (inside p member) p member (h.represents.equivalent p member)
  have earlier : d.reachable.toList.Pairwise fun p q => m.rename p ≠ q := by
    refine d.reachable.sorted.imp_of_mem fun {p q} member _ order same => ?_
    have below := lower p member
    rw [same, Std.OrientedCmp.gt_iff_lt.mpr order] at below
    cases below
  have nodup := nodup_keys_rows (d := e) e.states.nodup_toList
  apply Table.ext
  rw [Table.entries_ofList nodup, h.moves_eq]
  rw [h.states_eq inside idempotent] at nodup ⊢
  exact Table.entries_ofList_flatMap inside idempotent earlier nodup

/-- Minimizing an automaton gives a reduced one that accepts alike and is minimal itself. -/
theorem minimize_reduced (d : DFA) : ∃ m, d.minimize = .ok m ∧ m.alphabet = d.alphabet ∧
    (∀ word, m.accepts word = d.accepts word) ∧ m.Reduced ∧ m.minimize = .ok m := by
  obtain ⟨m, sets, groups, minimizes, diagram, alphabet, accepts⟩ := d.minimize_ok
  have represented : d.Represented m (elect sets) := ⟨groups.represents, diagram⟩
  refine ⟨m, minimizes, alphabet, accepts, represented.reduced, ?_⟩
  rw [minimize_of_reduced represented.reduced, ← moves_eq_rows groups represented]
  exact ofDiagram_eq m.closed m.label_mem m.total

/-- Minimal automata of one language over one alphabet are isomorphic, and they have no more states
    than any automaton of that language. The minimal automaton of a minimal automaton is itself. -/
theorem minimize_canonical :
    (∀ d e : DFA, d.alphabet = e.alphabet →
      (∀ word, d.accepts word = .ok true ↔ e.accepts word = .ok true) →
        ∃ m n, d.minimize = .ok m ∧ e.minimize = .ok n ∧ Isomorphic m.diagram n.diagram ∧
          m.states.size ≤ e.states.size) ∧
    ∀ d : DFA, ∃ m, d.minimize = .ok m ∧ (∀ word, m.accepts word = d.accepts word) ∧
      m.minimize = .ok m := by
  constructor
  · intro d e alphabet same
    obtain ⟨m, minimizes, alphabet₁, accepts₁, reduced₁, _⟩ := d.minimize_reduced
    obtain ⟨n, minimizes', alphabet₂, accepts₂, reduced₂, _⟩ := e.minimize_reduced
    have alphabet' : m.alphabet = e.alphabet := alphabet₁.trans alphabet
    refine ⟨m, n, minimizes, minimizes', ?_, ?_⟩
    · refine reduced₁.isomorphic reduced₂ (alphabet'.trans alphabet₂.symm) (alike_start ?_ ?_)
      · exact alphabet'.trans alphabet₂.symm
      · intro word
        rw [accepts₁, accepts₂, same]
    · refine reduced₁.size_le alphabet' (alike_start alphabet' fun word => ?_)
      rw [accepts₁, same]
  · intro d
    obtain ⟨m, minimizes, _, accepts, _, again⟩ := d.minimize_reduced
    exact ⟨m, minimizes, accepts, again⟩

/-- Two ways to tell the empty word from all others: one with two states for the same words, one
    with a state that is never reached. -/
theorem minimize_canonical_nonempty :
    let a : State := ⟨"a"⟩
    let b : State := ⟨"b"⟩
    let c : State := ⟨"c"⟩
    let A : Alphabet := ⟨.ofList ['x'], by decide, by decide⟩
    let D : MoveDiagram := ⟨.ofList [a, b, c], A,
      .ofList [((a, "x"), b), ((b, "x"), c), ((c, "x"), b)], a, .ofList [b, c]⟩
    let E : MoveDiagram := ⟨.ofList [a, b, c], A,
      .ofList [((a, "x"), c), ((b, "x"), a), ((c, "x"), c)], a, .ofList [c]⟩
    ∃ d e m n, ofDiagram D = .ok d ∧ ofDiagram E = .ok e ∧
      (∀ word, d.accepts word = .ok true ↔ e.accepts word = .ok true) ∧ d.minimize = .ok m ∧
        e.minimize = .ok n ∧ Isomorphic m.diagram n.diagram ∧ m.states.size ≤ e.states.size := by
  intro a b c A D E
  let d : DFA := ⟨D, ⟨by decide +kernel, by decide +kernel, by decide +kernel, by decide +kernel⟩,
    by decide +kernel, by decide +kernel⟩
  let e : DFA := ⟨E, ⟨by decide +kernel, by decide +kernel, by decide +kernel, by decide +kernel⟩,
    by decide +kernel, by decide +kernel⟩
  have start : d.Alike e a a := by
    refine .of_bisimulation (R := fun p q => p = a ∧ q = a ∨ (p = b ∨ p = c) ∧ q = c) ?_ ?_
      (.inl ⟨rfl, rfl⟩)
    · rintro p q (⟨rfl, rfl⟩ | ⟨rfl | rfl, rfl⟩) <;> decide +kernel
    · intro p q related x letter
      obtain rfl : x = 'x' := List.mem_singleton.mp (SortedSet.mem_ofList.mp letter)
      rcases related with ⟨rfl, rfl⟩ | ⟨rfl | rfl, rfl⟩
      · exact ⟨b, c, by decide +kernel, by decide +kernel, .inr ⟨.inl rfl, rfl⟩⟩
      · exact ⟨c, c, by decide +kernel, by decide +kernel, .inr ⟨.inr rfl, rfl⟩⟩
      · exact ⟨b, c, by decide +kernel, by decide +kernel, .inr ⟨.inl rfl, rfl⟩⟩
  have same : ∀ word, d.accepts word = .ok true ↔ e.accepts word = .ok true := by
    intro word
    have accepts : d.accepts word = e.accepts word :=
      accepts_of_alike (d := d) (e := e) rfl start word
    rw [accepts]
  obtain ⟨m, n, first, second, isomorphic, size⟩ := minimize_canonical.1 d e rfl same
  exact ⟨d, e, m, n, ofDiagram_eq d.closed d.label_mem d.total,
    ofDiagram_eq e.closed e.label_mem e.total, same, first, second, isomorphic, size⟩

end Automata.DFA
