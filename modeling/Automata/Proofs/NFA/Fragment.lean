import Automata.NFA.Fragment
import Automata.Proofs.NFA.Basic

/-! # Languages of the smallest automata

An automaton of one state accepts the empty word or nothing. One for a choice of symbols accepts
each of them alone, and exists exactly when they are all characters of the alphabet.
-/

namespace Automata.NFA

variable {A : Alphabet} {a : Allocator} {n : NFA} {E : Error → Prop}

/-- The diagram of a single state. -/
def singleDiagram (A : Alphabet) (p : State) (accepts : Bool) : StateDiagram where
  states := .singleton p
  alphabet := A
  edges := ∅
  start := p
  accepting := if accepts then .singleton p else ∅

theorem mem_accepting_singleDiagram {p q : State} {accepts : Bool} :
    q ∈ (singleDiagram A p accepts).accepting ↔ accepts = true ∧ q = p := by
  cases accepts with
  | true => simp [singleDiagram]
  | false => simp [singleDiagram, SortedSet.not_mem_empty]

theorem closed_singleDiagram {p : State} {accepts : Bool} :
    (singleDiagram A p accepts).Closed where
  start_mem := SortedSet.mem_singleton.mpr rfl
  accepting_mem _ final := SortedSet.mem_singleton.mpr (mem_accepting_singleDiagram.mp final).2
  source_mem _ edge := absurd edge (SortedSet.not_mem_empty _)
  target_mem _ edge := absurd edge (SortedSet.not_mem_empty _)

theorem wellLabelled_singleDiagram {p : State} {accepts : Bool} :
    WellLabelled (singleDiagram A p accepts) :=
  fun _ edge => absurd edge (SortedSet.not_mem_empty _)

theorem language_of_singleDiagram {p : State} {accepts : Bool}
    (diagram : n.toStateDiagram = singleDiagram A p accepts) :
    n.language = if accepts then 1 else 0 := by
  have none : ∀ e, e ∉ n.edges := by
    intro e
    rw [diagram]
    exact SortedSet.not_mem_empty e
  have accepting : ∀ q, q ∈ n.accepting ↔ accepts = true ∧ q = p := by
    intro q
    rw [diagram]
    exact mem_accepting_singleDiagram
  have begins : n.start = p := by rw [diagram, singleDiagram]
  apply le_antisymm
  · let F : State → Language Char := fun _ => if accepts then 1 else 0
    refine wordsFrom_le (F := F) (fun q final => ?_) (fun e edge => absurd edge (none e)) n.start
    have same : F q = 1 := if_pos ((accepting q).mp final).1
    exact same ▸ Language.nil_mem_one
  · cases accepts with
    | true =>
        rintro w rfl
        exact nil_mem_wordsFrom ((accepting _).mpr ⟨rfl, begins⟩)
    | false =>
        intro w h
        exact absurd h (Language.notMem_zero w)

theorem single_ensures {accepts : Bool} :
    (single (.ok A) accepts).Ensures a (fun n c => n.alphabet = A ∧
      (∀ p ∈ n.states, a.Drawn c p) ∧ n.language = if accepts then 1 else 0) E := by
  unfold single
  refine .bind .draw fun p c ac drawn => .bind (.check_ok (P := fun B c => B = A ∧ a.Drawn c p)
    ⟨rfl, drawn.1⟩) fun B d cd ⟨same, drawn⟩ => ?_
  subst same
  refine ofDiagram_ensures (d := singleDiagram B p accepts) closed_singleDiagram
    wellLabelled_singleDiagram fun n diagram => ⟨?_, fun q member => ?_, ?_⟩
  · rw [diagram, singleDiagram]
  · rw [diagram] at member
    exact SortedSet.mem_singleton.mp member ▸ drawn
  · exact language_of_singleDiagram diagram

/-! ### One of several symbols -/

/-- The diagram of two states with an edge for every symbol. -/
def choiceDiagram (A : Alphabet) (start accept : State) (symbols : List Symbol) :
    StateDiagram where
  states := .ofList [start, accept]
  alphabet := A
  edges := .ofList (symbols.map fun s => ⟨start, s, accept⟩)
  start := start
  accepting := .singleton accept

variable {start accept : State} {symbols : List Symbol}

theorem mem_edges_choiceDiagram {e : Edge} :
    e ∈ (choiceDiagram A start accept symbols).edges ↔
      ∃ s ∈ symbols, e = ⟨start, s, accept⟩ := by
  simp [choiceDiagram, eq_comm]

theorem mem_states_choiceDiagram {p : State} :
    p ∈ (choiceDiagram A start accept symbols).states ↔ p = start ∨ p = accept := by
  simp [choiceDiagram]

theorem closed_choiceDiagram : (choiceDiagram A start accept symbols).Closed where
  start_mem := mem_states_choiceDiagram.mpr (.inl rfl)
  accepting_mem _ final := mem_states_choiceDiagram.mpr (.inr (SortedSet.mem_singleton.mp final))
  source_mem e edge := by
    obtain ⟨s, _, rfl⟩ := mem_edges_choiceDiagram.mp edge
    exact mem_states_choiceDiagram.mpr (.inl rfl)
  target_mem e edge := by
    obtain ⟨s, _, rfl⟩ := mem_edges_choiceDiagram.mp edge
    exact mem_states_choiceDiagram.mpr (.inr rfl)

theorem wellLabelled_choiceDiagram :
    WellLabelled (choiceDiagram A start accept symbols) ↔
      ∀ s ∈ symbols, s = Symbol.epsilon ∨ s ∈ A.symbols := by
  constructor
  · intro labels s member
    exact labels _ (mem_edges_choiceDiagram.mpr ⟨s, member, rfl⟩)
  · intro known e edge
    obtain ⟨s, member, rfl⟩ := mem_edges_choiceDiagram.mp edge
    exact known s member

theorem language_of_choiceDiagram (known : ∀ s ∈ symbols, s ∈ A.symbols)
    (different : start ≠ accept)
    (diagram : n.toStateDiagram = choiceDiagram A start accept symbols) :
    n.language = Regex.letters (Symbol.ofChar · ∈ symbols) := by
  have edges : ∀ e, e ∈ n.edges ↔ ∃ s ∈ symbols, e = ⟨start, s, accept⟩ := by
    intro e
    rw [diagram]
    exact mem_edges_choiceDiagram
  have accepting : ∀ q, q ∈ n.accepting ↔ q = accept := by
    intro q
    rw [diagram]
    exact SortedSet.mem_singleton
  have begins : n.start = start := by rw [diagram, choiceDiagram]
  rw [language, begins]
  apply le_antisymm
  · let F : State → Language Char := fun p =>
      if p = start then Regex.letters (Symbol.ofChar · ∈ symbols) else 1
    have first : F start = Regex.letters (Symbol.ofChar · ∈ symbols) := if_pos rfl
    have last : F accept = 1 := if_neg different.symm
    rw [← first]
    refine wordsFrom_le (fun p final => ?_) (fun e edge w h => ?_) _
    · rw [(accepting p).mp final, last]
      rfl
    · obtain ⟨s, member, rfl⟩ := (edges e).mp edge
      obtain ⟨c, letter, rfl⟩ := Alphabet.mem_symbols.mp (known s member)
      rw [last] at h
      obtain rfl := (Language.mem_one w).mp h
      rw [first, Symbol.spelled_ofChar (Alphabet.ne_epsilon letter)]
      exact ⟨c, member, rfl⟩
  · rintro w ⟨c, member, rfl⟩
    have letter := Alphabet.ofChar_mem_symbols.mp (known _ member)
    have after : [] ∈ n.wordsFrom accept := nil_mem_wordsFrom ((accepting accept).mpr rfl)
    have step := append_mem_wordsFrom ((edges _).mpr ⟨_, member, rfl⟩) after
    rwa [Symbol.spelled_ofChar (Alphabet.ne_epsilon letter)] at step

/-- Symbols make an automaton exactly when they are characters of the alphabet. -/
theorem forAnyOf_builds :
    (forAnyOf A symbols).Ensures a
      (fun n c => (∀ s ∈ symbols, s ∈ A.symbols) ∧ ∃ start accept, a.Drawn c start ∧
        a.Drawn c accept ∧ start ≠ accept ∧
        n.toStateDiagram = choiceDiagram A start accept (Sorting.sort symbols))
      (fun e => e.kind = .alphabet ∧ ¬ ∀ s ∈ symbols, s ∈ A.symbols) := by
  have sorted : ∀ {P : Symbol → Prop}, (∀ s ∈ Sorting.sort symbols, P s) ↔ ∀ s ∈ symbols, P s := by
    simp
  unfold forAnyOf
  dsimp only
  by_cases covered : ∀ c ∈ (String.join (Sorting.sort symbols)).toList, c ∈ A
  · -- the characters are known, so that only a symbol that is no single character is at fault
    have plain : ∀ s ∈ symbols, s ≠ Symbol.epsilon := by
      rintro s member rfl
      refine A.epsilon_not_mem (covered 'ε' ?_)
      rw [String.toList_join, List.mem_flatMap]
      exact ⟨_, Sorting.mem_sort.mpr member, by decide⟩
    rw [Alphabet.check_ok covered]
    refine .bind (.check_ok (P := fun _ _ => True) trivial) fun _ c ac _ => ?_
    refine .bind .drawPair fun (start, accept) d cd ⟨first, second, _, _, different⟩ => ?_
    by_cases known : ∀ s ∈ symbols, s ∈ A.symbols
    · refine ofDiagram_ensures (d := choiceDiagram A start accept (Sorting.sort symbols))
        closed_choiceDiagram ?_ fun n diagram =>
          ⟨known, start, accept, first.left ac, second.left ac, different, diagram⟩
      exact wellLabelled_choiceDiagram.mpr (sorted.mpr fun s member => .inr (known s member))
    · refine ofDiagram_refused (d := choiceDiagram A start accept (Sorting.sort symbols))
        closed_choiceDiagram (fun labels => known fun s member => ?_) fun e kind => ⟨kind, known⟩
      have labelled := sorted.mp (wellLabelled_choiceDiagram.mp labels) s member
      exact labelled.resolve_left (plain s member)
  · obtain ⟨e, failure, kind⟩ := Alphabet.check_error covered
    rw [failure]
    refine .bind
      (.check_error (P := fun _ _ => False) ⟨kind, fun known => covered fun c member => ?_⟩)
      fun _ _ _ impossible => impossible.elim
    rw [String.toList_join, List.mem_flatMap] at member
    obtain ⟨s, inside, member⟩ := member
    obtain ⟨d, letter, rfl⟩ := Alphabet.mem_symbols.mp (known s (Sorting.mem_sort.mp inside))
    obtain rfl : c = d := by simpa [Symbol.ofChar] using member
    exact letter

theorem forAnyOf_ensures :
    (forAnyOf A symbols).Ensures a
      (fun n c => (∀ s ∈ symbols, s ∈ A.symbols) ∧ n.alphabet = A ∧
        (∀ p ∈ n.states, a.Drawn c p) ∧ n.language = Regex.letters (Symbol.ofChar · ∈ symbols))
      (fun e => e.kind = .alphabet ∧ ¬ ∀ s ∈ symbols, s ∈ A.symbols) := by
  refine forAnyOf_builds.weaken (fun n c _ h => ?_) fun _ h => h
  obtain ⟨known, start, accept, first, second, different, diagram⟩ := h
  refine ⟨known, ?_, fun p member => ?_, ?_⟩
  · rw [diagram, choiceDiagram]
  · rw [diagram] at member
    rcases mem_states_choiceDiagram.mp member with rfl | rfl
    · exact first
    · exact second
  · rw [language_of_choiceDiagram (fun s member => known s (Sorting.mem_sort.mp member)) different
      diagram]
    simp only [Sorting.mem_sort]

end Automata.NFA
