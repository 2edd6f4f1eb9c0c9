import Automata.Proofs.NFA.Combine
import Mathlib.Algebra.Order.Kleene

/-! # Automata with fresh states

Union, star and the bridge to a single accepting state add states that the allocator has not handed
out before. The new start state leads into the operands by ε-moves, and what is accepted from it is
the sum, the star, or just the language of the operand.
-/

open scoped Computability

namespace Automata.NFA

variable {A : Alphabet} {a : Allocator} {l : List NFA} {n first : NFA} {others : List NFA}
  {start accept : State} {E : Error → Prop}

/-! ### Union -/

/-- The diagram of a union. -/
def unionDiagram (A : Alphabet) (start : State) (l : List NFA) : StateDiagram where
  states := (allStates l).insert start
  alphabet := A
  edges := .ofList (allEdges l ++ l.map fun n => ⟨start, Symbol.epsilon, n.start⟩)
  start := start
  accepting := .unions (l.map fun n => n.accepting)

theorem mem_edges_unionDiagram {e : Edge} :
    e ∈ (unionDiagram A start l).edges ↔
      e ∈ allEdges l ∨ ∃ n ∈ l, e = ⟨start, Symbol.epsilon, n.start⟩ := by
  simp [unionDiagram, eq_comm]

theorem closed_unionDiagram : (unionDiagram A start l).Closed where
  start_mem := SortedSet.mem_insert.mpr (.inl rfl)
  accepting_mem p final := by
    obtain ⟨S, member, final⟩ := SortedSet.mem_unions.mp final
    obtain ⟨n, inside, rfl⟩ := List.mem_map.mp member
    exact SortedSet.mem_insert.mpr (.inr (mem_allStates.mpr ⟨n, inside, accepting_subset final⟩))
  source_mem e edge := by
    rcases mem_edges_unionDiagram.mp edge with old | ⟨n, inside, rfl⟩
    · obtain ⟨n, inside, edge⟩ := mem_allEdges.mp old
      exact SortedSet.mem_insert.mpr
        (.inr (mem_allStates.mpr ⟨n, inside, n.closed.source_mem e edge⟩))
    · exact SortedSet.mem_insert.mpr (.inl rfl)
  target_mem e edge := by
    rcases mem_edges_unionDiagram.mp edge with old | ⟨n, inside, rfl⟩
    · obtain ⟨n, inside, edge⟩ := mem_allEdges.mp old
      exact SortedSet.mem_insert.mpr
        (.inr (mem_allStates.mpr ⟨n, inside, n.closed.target_mem e edge⟩))
    · exact SortedSet.mem_insert.mpr (.inr (mem_allStates.mpr ⟨n, inside, n.start_mem⟩))

theorem wellLabelled_unionDiagram (alphabets : ∀ n ∈ l, n.alphabet = A) :
    WellLabelled (unionDiagram A start l) := by
  intro e edge
  rcases mem_edges_unionDiagram.mp edge with old | ⟨n, _, rfl⟩
  · exact label_of_mem_allEdges alphabets old
  · exact .inl rfl

theorem language_of_unionDiagram (apart : l.Pairwise Apart) (fresh : ∀ n ∈ l, start ∉ n.states)
    (diagram : n.toStateDiagram = unionDiagram A start l) :
    n.language = (l.map language).sum := by
  have edges : ∀ e, e ∈ n.edges ↔ e ∈ (unionDiagram A start l).edges := by simp [diagram]
  have begins : n.start = start := by rw [diagram, unionDiagram]
  have old : ∀ m ∈ l, ∀ p ∈ m.states, p ≠ start := by
    rintro m inside p member rfl
    exact fresh m inside member
  rw [language, begins]
  apply le_antisymm
  · let F : State → Language Char := fun p => if p = start then (l.map language).sum else
      {w | ∃ m ∈ l, p ∈ m.states ∧ w ∈ m.wordsFrom p}
    have outer : F start = (l.map language).sum := if_pos rfl
    have inner : ∀ m ∈ l, ∀ p ∈ m.states, F p = m.wordsFrom p := by
      intro m inside p member
      have here : F p = {w | ∃ m ∈ l, p ∈ m.states ∧ w ∈ m.wordsFrom p} :=
        if_neg (old m inside p member)
      rw [here]
      ext w
      constructor
      · rintro ⟨m', inside', member', h⟩
        exact eq_of_mem_states apart inside inside' member member' ▸ h
      · intro h
        exact ⟨m, inside, member, h⟩
    rw [← outer]
    refine wordsFrom_le (fun p final => ?_) (fun e edge w h => ?_) _
    · rw [diagram] at final
      obtain ⟨S, member, final⟩ := SortedSet.mem_unions.mp final
      obtain ⟨m, inside, rfl⟩ := List.mem_map.mp member
      rw [inner m inside p (accepting_subset final)]
      exact nil_mem_wordsFrom final
    · rcases mem_edges_unionDiagram.mp ((edges e).mp edge) with edge | ⟨m, inside, rfl⟩
      · obtain ⟨m, inside, edge⟩ := mem_allEdges.mp edge
        rw [inner m inside _ (m.closed.target_mem e edge)] at h
        rw [inner m inside _ (m.closed.source_mem e edge)]
        exact append_mem_wordsFrom edge h
      · rw [inner m inside _ m.start_mem] at h
        rw [outer]
        exact Regex.mem_sum_map.mpr ⟨m, inside, h⟩
  · intro w h
    obtain ⟨m, inside, h⟩ := Regex.mem_sum_map.mp h
    refine wordsFrom_epsilon ((edges _).mpr ?_) (wordsFrom_mono (fun e edge => ?_) ?_ _ h)
    · exact mem_edges_unionDiagram.mpr (.inr ⟨m, inside, rfl⟩)
    · exact (edges e).mpr (mem_edges_unionDiagram.mpr (.inl (mem_allEdges.mpr ⟨m, inside, edge⟩)))
    · intro q final
      rw [diagram]
      exact SortedSet.mem_unions.mpr ⟨_, List.mem_map.mpr ⟨m, inside, rfl⟩, final⟩

/-- If the next state is none of the operands', then their union is built around it. -/
theorem union_run {c : Allocator} (taken : a.take = (.ok start, c))
    (compatible : checkCompatible (first :: others) = .ok ())
    (fresh : ∀ n ∈ first :: others, start ∉ n.states) :
    ∃ k, (union (first :: others)).runFrom a = (.ok k, c) ∧
      k.toStateDiagram = unionDiagram first.alphabet start (first :: others) := by
  have labels : WellLabelled (unionDiagram first.alphabet start (first :: others)) :=
    wellLabelled_unionDiagram (compatible_of_check compatible).1
  have free : ¬ (first :: others).any (fun n => decide (start ∈ n.states)) = true := by
    simpa using fresh
  refine ⟨⟨_, closed_unionDiagram, labels⟩, ?_, rfl⟩
  rw [union, compatible, Building.runFrom_bind, Building.runFrom_check]
  dsimp only
  rw [Building.runFrom_bind, Building.runFrom_draw, taken]
  dsimp only
  rw [if_neg free]
  exact congrArg (·, c) (ofDiagram_ok closed_unionDiagram labels)

theorem union_of_take_error {c : Allocator} {e : Error} (taken : a.take = (.error e, c))
    (compatible : checkCompatible (first :: others) = .ok ()) :
    (union (first :: others)).runFrom a = (.error e, c) := by
  rw [union, compatible, Building.runFrom_bind, Building.runFrom_check]
  dsimp only
  rw [Building.runFrom_bind, Building.runFrom_draw, taken]

/-- Automata over one alphabet that are apart can be united with a state that none of them has. -/
theorem union_ensures (alphabets : ∀ n ∈ first :: others, n.alphabet = A)
    (apart : (first :: others).Pairwise Apart)
    (fresh : ∀ p, a.Offers p → ∀ n ∈ first :: others, p ∉ n.states) :
    (union (first :: others)).Ensures a (fun n c => n.alphabet = A ∧
      (∃ start, a.Drawn c start ∧ n.states = (allStates (first :: others)).insert start) ∧
      n.language = ((first :: others).map language).sum) E := by
  have compatible := checkCompatible_ok alphabets apart
  refine .of_take (fun start c taken => ?_) fun e c taken => union_of_take_error taken compatible
  obtain ⟨drawn, free⟩ := Allocator.take_ok taken
  have unused := fresh start (drawn.offers free)
  obtain ⟨k, run, diagram⟩ := union_run taken compatible unused
  refine ⟨k, run, ?_, ⟨start, drawn, ?_⟩, language_of_unionDiagram apart unused diagram⟩
  · rw [diagram]
    exact alphabets first (by simp)
  · rw [diagram, unionDiagram]

/-! ### Wrapping -/

/-- A diagram wraps an automaton: a start state leads into it by an ε-move, and ε-moves lead from
    its accepting states to a target. -/
structure Wraps (d : StateDiagram) (n : NFA) (start target : State) : Prop where
  alphabet_eq : d.alphabet = n.alphabet
  start_eq : d.start = start
  states : ∀ p, p ∈ d.states ↔ p = start ∨ p = target ∨ p ∈ n.states
  edges : ∀ e, e ∈ d.edges ↔ e ∈ n.edges ∨ e = ⟨start, Symbol.epsilon, n.start⟩ ∨
    ∃ p ∈ n.accepting, e = ⟨p, Symbol.epsilon, target⟩

namespace Wraps

variable {d : StateDiagram} {target : State} {k : NFA} {F : State → Language Char}

theorem closed (wraps : Wraps d n start target) (accepting : ∀ p ∈ d.accepting, p ∈ d.states) :
    d.Closed where
  start_mem := (wraps.states _).mpr (.inl wraps.start_eq)
  accepting_mem := accepting
  source_mem e edge := by
    rcases (wraps.edges e).mp edge with old | rfl | ⟨p, final, rfl⟩
    · exact (wraps.states _).mpr (.inr (.inr (n.closed.source_mem e old)))
    · exact (wraps.states _).mpr (.inl rfl)
    · exact (wraps.states _).mpr (.inr (.inr (accepting_subset final)))
  target_mem e edge := by
    rcases (wraps.edges e).mp edge with old | rfl | ⟨p, _, rfl⟩
    · exact (wraps.states _).mpr (.inr (.inr (n.closed.target_mem e old)))
    · exact (wraps.states _).mpr (.inr (.inr n.start_mem))
    · exact (wraps.states _).mpr (.inr (.inl rfl))

theorem wellLabelled (wraps : Wraps d n start target) : WellLabelled d := by
  intro e edge
  rcases (wraps.edges e).mp edge with old | rfl | ⟨p, _, rfl⟩
  · exact wraps.alphabet_eq ▸ n.label_mem e old
  · exact .inl rfl
  · exact .inl rfl

/-- What is accepted from the target follows the words of the wrapped automaton. -/
theorem le_wordsFrom (wraps : Wraps k.toStateDiagram n start target) :
    n.language * k.wordsFrom target ≤ k.wordsFrom start := by
  intro w h
  obtain ⟨u, inner, v, after, rfl⟩ := Language.mem_mul.mp h
  have enter := (wraps.edges _).mpr (.inr (.inl rfl))
  refine wordsFrom_epsilon enter (wordsFrom_extend (fun e edge => ?_) (fun q final => ?_) inner)
  · exact (wraps.edges e).mpr (.inl edge)
  · exact wordsFrom_epsilon ((wraps.edges _).mpr (.inr (.inr ⟨q, final, rfl⟩))) after

/-- A family of languages is closed under the edges of a wrapping if the words of the wrapped
    automaton come before those of the target, and both before those of the start. -/
theorem wordsFrom_le (wraps : Wraps k.toStateDiagram n start target)
    (accepting : ∀ p ∈ k.accepting, [] ∈ F p)
    (inner : ∀ p ∈ n.states, F p = n.wordsFrom p * F target)
    (enter : n.language * F target ≤ F start) : k.wordsFrom start ≤ F start := by
  refine NFA.wordsFrom_le accepting (fun e edge w h => ?_) _
  rcases (wraps.edges e).mp edge with old | rfl | ⟨p, final, rfl⟩
  · rw [inner _ (n.closed.target_mem e old)] at h
    rw [inner _ (n.closed.source_mem e old)]
    obtain ⟨u, first, v, rest, rfl⟩ := Language.mem_mul.mp h
    rw [← List.append_assoc]
    exact Language.append_mem_mul (append_mem_wordsFrom old first) rest
  · rw [inner _ n.start_mem] at h
    exact enter h
  · rw [inner _ (accepting_subset final)]
    exact Language.append_mem_mul (nil_mem_wordsFrom final) h

end Wraps

/-! ### Star -/

/-- The diagram of a star. -/
def starDiagram (n : NFA) (start : State) : StateDiagram where
  states := n.states.insert start
  alphabet := n.alphabet
  edges := .ofList (n.edges.toList ++ ⟨start, Symbol.epsilon, n.start⟩ :: bridges n.accepting start)
  start := start
  accepting := n.accepting.insert start

theorem wraps_starDiagram : Wraps (starDiagram n start) n start start where
  alphabet_eq := rfl
  start_eq := rfl
  states p := by simp [starDiagram]
  edges e := by simp [starDiagram, mem_bridges]

theorem closed_starDiagram : (starDiagram n start).Closed := by
  refine wraps_starDiagram.closed fun p final => ?_
  exact SortedSet.mem_insert.mpr ((SortedSet.mem_insert.mp final).imp_right accepting_subset)

theorem language_of_starDiagram {k : NFA} (fresh : start ∉ n.states)
    (diagram : k.toStateDiagram = starDiagram n start) : k.language = n.language∗ := by
  have wraps : Wraps k.toStateDiagram n start start := diagram ▸ wraps_starDiagram
  have accepting : ∀ p, p ∈ k.accepting ↔ p = start ∨ p ∈ n.accepting := by
    intro p
    rw [diagram]
    exact SortedSet.mem_insert
  rw [language, wraps.start_eq]
  apply le_antisymm
  · -- from a state of the operand, one repetition is finished before the next ones
    let F : State → Language Char := fun p =>
      if p = start then n.language∗ else n.wordsFrom p * n.language∗
    have outer : F start = n.language∗ := if_pos rfl
    have inner : ∀ p ∈ n.states, F p = n.wordsFrom p * n.language∗ := by
      intro p member
      apply if_neg
      rintro rfl
      exact fresh member
    rw [← outer]
    refine wraps.wordsFrom_le (fun p final => ?_) (by rwa [outer]) ?_
    · rcases (accepting p).mp final with rfl | final
      · exact outer ▸ Language.nil_mem_kstar _
      · rw [inner p (accepting_subset final)]
        exact Language.append_mem_mul (nil_mem_wordsFrom final) (Language.nil_mem_kstar _)
    · rw [outer]
      exact mul_kstar_le_kstar
  · have none : (1 : Language Char) ≤ k.wordsFrom start := by
      rintro w rfl
      exact nil_mem_wordsFrom ((accepting start).mpr (.inl rfl))
    simpa using kstar_le_of_mul_le_right none wraps.le_wordsFrom

/-- If the next state is none of the operand, then the star is built around it. -/
theorem star_run {c : Allocator} (taken : a.take = (.ok start, c)) (fresh : start ∉ n.states) :
    ∃ k, n.star.runFrom a = (.ok k, c) ∧ k.toStateDiagram = starDiagram n start := by
  refine ⟨⟨starDiagram n start, closed_starDiagram, wraps_starDiagram.wellLabelled⟩, ?_, rfl⟩
  rw [star, Building.runFrom_bind, Building.runFrom_draw, taken]
  dsimp only
  rw [if_neg fresh]
  exact congrArg (·, c) (ofDiagram_ok closed_starDiagram wraps_starDiagram.wellLabelled)

/-- A star can be built from a state that the operand does not have. -/
theorem star_ensures (fresh : ∀ p, a.Offers p → p ∉ n.states) :
    n.star.Ensures a (fun k c => k.alphabet = n.alphabet ∧
      (∃ start, a.Drawn c start ∧ k.states = n.states.insert start) ∧
      k.language = n.language∗) E := by
  refine .of_take (fun start c taken => ?_) fun e c taken => ?_
  · obtain ⟨drawn, free⟩ := Allocator.take_ok taken
    have unused := fresh start (drawn.offers free)
    obtain ⟨k, run, diagram⟩ := star_run taken unused
    refine ⟨k, run, ?_, ⟨start, drawn, ?_⟩, language_of_starDiagram unused diagram⟩
    · rw [diagram, starDiagram]
    · rw [diagram, starDiagram]
  · rw [star, Building.runFrom_bind, Building.runFrom_draw, taken]

/-! ### A single accepting state -/

/-- The diagram between two bridge states. -/
def bridgedDiagram (n : NFA) (start accept : State) : StateDiagram where
  states := (n.states.insert start).insert accept
  alphabet := n.alphabet
  edges := .ofList
    (n.edges.toList ++ ⟨start, Symbol.epsilon, n.start⟩ :: bridges n.accepting accept)
  start := start
  accepting := .singleton accept

theorem wraps_bridgedDiagram : Wraps (bridgedDiagram n start accept) n start accept where
  alphabet_eq := rfl
  start_eq := rfl
  states p := by
    simp only [bridgedDiagram, SortedSet.mem_insert]
    exact or_left_comm
  edges e := by simp [bridgedDiagram, mem_bridges]

theorem closed_bridgedDiagram : (bridgedDiagram n start accept).Closed := by
  apply wraps_bridgedDiagram.closed
  intro p final
  exact SortedSet.mem_insert.mpr (.inl (SortedSet.mem_singleton.mp final))

theorem language_of_bridgedDiagram {k : NFA} (freshStart : start ∉ n.states)
    (freshAccept : accept ∉ n.states) (different : start ≠ accept)
    (diagram : k.toStateDiagram = bridgedDiagram n start accept) : k.language = n.language := by
  have wraps : Wraps k.toStateDiagram n start accept := diagram ▸ wraps_bridgedDiagram
  have accepting : ∀ p, p ∈ k.accepting ↔ p = accept := by
    intro p
    rw [diagram]
    exact SortedSet.mem_singleton
  rw [language, wraps.start_eq]
  apply le_antisymm
  · let F : State → Language Char := fun p =>
      if p = start then n.language else if p = accept then 1 else n.wordsFrom p
    have first : F start = n.language := if_pos rfl
    have last : F accept = 1 := (if_neg different.symm).trans (if_pos rfl)
    have inner : ∀ p ∈ n.states, F p = n.wordsFrom p * F accept := by
      intro p member
      have old : p ≠ start ∧ p ≠ accept := by
        constructor
        · rintro rfl
          exact freshStart member
        · rintro rfl
          exact freshAccept member
      rw [last, mul_one]
      exact (if_neg old.1).trans (if_neg old.2)
    rw [← first]
    refine wraps.wordsFrom_le (fun p final => ?_) inner ?_
    · rw [(accepting p).mp final, last]
      rfl
    · rw [last, mul_one, first]
  · intro w h
    have final : [] ∈ k.wordsFrom accept := nil_mem_wordsFrom ((accepting accept).mpr rfl)
    have through := wraps.le_wordsFrom (Language.append_mem_mul h final)
    rwa [List.append_nil] at through

/-- The bridge fails only if a state is drawn that the automaton has. -/
theorem withSingleAccept_ensures (taken : ∀ p q, a.Offers p → a.Offers q →
      p ∈ n.states ∨ q ∈ n.states → E (.bridgeTaken p q n.summary)) :
    n.withSingleAccept.Ensures a (fun k _ => ∃ start accept, start ≠ accept ∧ start ∉ n.states ∧
      accept ∉ n.states ∧ k.toStateDiagram = bridgedDiagram n start accept) E := by
  unfold withSingleAccept
  refine .bind .drawPair fun (start, accept) c _ ⟨_, _, first, second, different⟩ => ?_
  dsimp only
  by_cases old : start ∈ n.states ∨ accept ∈ n.states
  · rw [if_pos old]
    exact .bind (.throw (P := fun _ _ => False) (taken start accept first second old))
      fun _ _ _ impossible => impossible.elim
  · rw [if_neg old]
    exact ofDiagram_ensures closed_bridgedDiagram wraps_bridgedDiagram.wellLabelled
      fun k diagram => ⟨start, accept, different, (not_or.mp old).1, (not_or.mp old).2, diagram⟩

end Automata.NFA
