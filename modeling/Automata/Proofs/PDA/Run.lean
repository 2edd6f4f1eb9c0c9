import Automata.PDA.Path
import Automata.Proofs.NFA.Language

/-! # Runs of pushdown automata

The search that decides acceptance follows ε-moves in rounds, and each round goes on from what the
one before has found. What it keeps are the configurations at the ends of all runs within the bound.
-/

namespace Automata

theorem StackDiagram.checkClosed_ok {d : StackDiagram} (closed : d.Closed) :
    d.checkClosed = .ok ⟨closed⟩ := by
  have sources : d.rules.sources ⊆ d.states := by
    intro p member
    obtain ⟨r, rule, rfl⟩ := SortedSet.mem_map.mp member
    exact closed.source_mem r rule
  have targets : d.rules.targets ⊆ d.states := by
    intro p member
    obtain ⟨r, rule, rfl⟩ := SortedSet.mem_map.mp member
    exact closed.target_mem r rule
  have accepting : d.accepting ⊆ d.states := closed.accepting_mem
  have stack : d.rules.stackSymbols ⊆ d.stack.symbols := closed.stack_mem
  rw [checkClosed, dif_pos closed.start_mem, dif_pos accepting, dif_pos sources, dif_pos targets,
    dif_pos closed.tape_mem, dif_pos stack]

theorem RuleSet.mem_moves {R : RuleSet} {p q : State} {popped tape pushed : Symbol} :
    ⟨q, pushed⟩ ∈ R.moves p popped tape ↔ ⟨p, popped, tape, q, pushed⟩ ∈ R := by
  rw [moves, SortedSet.mem_ofList, List.mem_map]
  constructor
  · intro ⟨r, member, same⟩
    obtain ⟨rule, fits⟩ := List.mem_filter.mp member
    obtain ⟨rfl, rfl, rfl⟩ := of_decide_eq_true fits
    cases same
    exact rule
  · intro rule
    exact ⟨_, List.mem_filter.mpr ⟨rule, by simp⟩, rfl⟩

namespace PDA

variable {m m' : PDA} {c d e : Configuration} {a : Symbol} {j k : Nat} {w : List Char}
  {S : SortedSet Configuration}

/-! ### Rounds of the search -/

theorem mem_step : d ∈ m.step c a ↔ (a = Symbol.epsilon ∧ d = c) ∨ m.Move a c d := by
  rw [step, SortedSet.mem_ofList, List.mem_append, List.mem_append, or_assoc]
  refine or_congr (by split <;> simp [*]) ?_
  constructor
  · intro found
    rcases found with free | popping
    · obtain ⟨⟨q, pushed⟩, rule, rfl⟩ := List.mem_map.mp free
      exact .free (RuleSet.mem_moves.mp rule)
    · obtain ⟨p, _ | ⟨top, stack⟩⟩ := c
      · cases popping
      · obtain ⟨⟨q, pushed⟩, rule, rfl⟩ := List.mem_map.mp popping
        exact .pop (RuleSet.mem_moves.mp rule)
  · intro move
    cases move with
    | free rule => exact .inl (List.mem_map.mpr ⟨_, RuleSet.mem_moves.mpr rule, rfl⟩)
    | pop rule => exact .inr (List.mem_map.mpr ⟨_, RuleSet.mem_moves.mpr rule, rfl⟩)

theorem mem_stepAll :
    d ∈ m.stepAll S a ↔ ∃ c ∈ S, (a = Symbol.epsilon ∧ d = c) ∨ m.Move a c d := by
  simp only [stepAll, SortedSet.mem_unions, List.mem_map, exists_exists_and_eq_and, mem_step,
    SortedSet.mem_toList]

theorem Waits.mem_of_closed (closed : ∀ c ∈ S, ∀ d, m.Move Symbol.epsilon c d → d ∈ S)
    (waits : m.Waits k c d) (member : c ∈ S) : d ∈ S := by
  induction waits with
  | stay => exact member
  | move move _ ih => exact ih (closed _ member _ move)

/-- What a round keeps: only from the frontier can moves still lead outside. -/
structure Explored (m : PDA) (frontier closure : SortedSet Configuration) : Prop where
  inside : ∀ c ∈ frontier, c ∈ closure
  explored : ∀ c ∈ closure, c ∉ frontier → ∀ d, m.Move Symbol.epsilon c d → d ∈ closure

namespace Explored

variable {frontier closure : SortedSet Configuration}

/-- A move from anywhere in the closure ends in the closure or in what a round finds. -/
theorem mem_of_move (known : m.Explored frontier closure) (member : c ∈ closure)
    (move : m.Move Symbol.epsilon c d) :
    d ∈ ((m.stepAll frontier Symbol.epsilon).diff closure).union closure := by
  by_cases old : d ∈ closure
  · exact SortedSet.mem_union.mpr (.inr old)
  · have source : c ∈ frontier := by
      by_contra elsewhere
      exact old (known.explored c member elsewhere d move)
    have reached := mem_stepAll.mpr ⟨c, source, .inr move⟩
    exact SortedSet.mem_union.mpr (.inl (SortedSet.mem_diff.mpr ⟨reached, old⟩))

theorem step (known : m.Explored frontier closure) :
    m.Explored ((m.stepAll frontier Symbol.epsilon).diff closure)
      (((m.stepAll frontier Symbol.epsilon).diff closure).union closure) where
  inside _ new := SortedSet.mem_union.mpr (.inl new)
  explored _ member old _ move :=
    known.mem_of_move ((SortedSet.mem_union.mp member).resolve_left old) move

/-- What a round finds is at most one move away. -/
theorem move_of_mem (known : m.Explored frontier closure)
    (member : d ∈ ((m.stepAll frontier Symbol.epsilon).diff closure).union closure) :
    d ∈ closure ∨ ∃ c ∈ closure, m.Move Symbol.epsilon c d := by
  rcases SortedSet.mem_union.mp member with new | old
  · obtain ⟨c, source, here⟩ := mem_stepAll.mp (SortedSet.mem_diff.mp new).1
    rcases here with ⟨_, rfl⟩ | move
    · exact .inl (known.inside d source)
    · exact .inr ⟨c, known.inside c source, move⟩
  · exact .inl old

/-- When a round finds nothing, no move leads outside. -/
theorem closed (known : m.Explored frontier closure)
    (nothing : ((m.stepAll frontier Symbol.epsilon).diff closure).isEmpty = true) :
    ∀ c ∈ closure, ∀ d, m.Move Symbol.epsilon c d → d ∈ closure := by
  intro c member d move
  refine (SortedSet.mem_union.mp (known.mem_of_move member move)).resolve_left fun new => ?_
  rw [← SortedSet.mem_toList, List.isEmpty_iff.mp nothing] at new
  cases new

theorem mem_closeWithin {rounds : Nat} (known : m.Explored frontier closure) :
    d ∈ m.closeWithin rounds frontier closure ↔ ∃ c ∈ closure, m.Waits rounds c d := by
  induction rounds generalizing frontier closure with
  | zero =>
      rw [closeWithin]
      constructor
      · intro member
        exact ⟨d, member, .stay⟩
      · intro ⟨c, member, waits⟩
        cases waits with
        | stay => exact member
  | succ rounds ih =>
      rw [closeWithin]
      split
      · rename_i nothing
        constructor
        · intro member
          exact ⟨d, member, .stay⟩
        · intro ⟨c, member, waits⟩
          exact waits.mem_of_closed (known.closed nothing) member
      · rw [ih known.step]
        constructor
        · intro ⟨c, member, waits⟩
          rcases known.move_of_mem member with old | ⟨b, source, move⟩
          · exact ⟨c, old, waits.mono (Nat.le_succ _)⟩
          · exact ⟨b, source, .move move waits⟩
        · intro ⟨c, member, waits⟩
          cases waits with
          | stay => exact ⟨d, SortedSet.mem_union.mpr (.inr member), .stay⟩
          | move move rest => exact ⟨_, known.mem_of_move member move, rest⟩

end Explored

theorem mem_epsilonClosure : d ∈ m.epsilonClosure S ↔ ∃ c ∈ S, m.Waits m.bound c d := by
  have start : m.Explored S S := ⟨fun _ member => member, fun _ member other => absurd member other⟩
  exact start.mem_closeWithin

theorem mem_foldl_advance (letters : ∀ a ∈ w, a ≠ 'ε') :
    d ∈ w.foldl m.advance (m.epsilonClosure S) ↔ ∃ c ∈ S, m.Run m.bound c w d := by
  induction w generalizing S with
  | nil =>
      rw [List.foldl_nil, mem_epsilonClosure]
      constructor
      · intro ⟨c, member, waits⟩
        exact ⟨c, member, .done waits⟩
      · intro ⟨c, member, run⟩
        cases run with
        | done waits => exact ⟨c, member, waits⟩
  | cons a w ih =>
      have letter : Symbol.ofChar a ≠ Symbol.epsilon := fun same =>
        letters a (by simp) (Symbol.ofChar_injective same)
      rw [List.foldl_cons, advance, ih fun b member => letters b (List.mem_cons_of_mem a member)]
      constructor
      · intro ⟨e, reached, run⟩
        obtain ⟨b, closed, ⟨reads, _⟩ | move⟩ := mem_stepAll.mp reached
        · exact absurd reads letter
        · obtain ⟨c, member, waits⟩ := mem_epsilonClosure.mp closed
          exact ⟨c, member, .read waits move run⟩
      · intro ⟨c, member, run⟩
        cases run with
        | read waits move run =>
            have closed := mem_epsilonClosure.mpr ⟨c, member, waits⟩
            exact ⟨_, mem_stepAll.mpr ⟨_, closed, .inr move⟩, run⟩

theorem recognizes_iff (letters : ∀ a ∈ w, a ≠ 'ε') :
    m.recognizes w = true ↔ m.HasRun m.bound w := by
  rw [recognizes, List.any_eq_true, startConfigurations]
  refine exists_congr fun d => ?_
  rw [SortedSet.mem_toList, mem_foldl_advance letters, decide_eq_true_iff, and_comm]
  simp

/-! ### Acceptance -/

variable {word : String}

theorem accepts_ok (covered : ∀ a ∈ word.toList, a ∈ m.input) :
    ∃ b, m.accepts word = .ok b ∧ (b = true ↔ m.HasRun m.bound word.toList) := by
  refine ⟨m.recognizes word.toList, ?_, recognizes_iff fun a member =>
    Alphabet.ne_epsilon (covered a member)⟩
  rw [accepts, Alphabet.check_ok covered]
  rfl

/-- A word is accepted if it is over the alphabet and some run within the bound reads it. -/
theorem accepts_iff : m.accepts word = .ok true ↔
    (∀ a ∈ word.toList, a ∈ m.input) ∧ m.HasRun m.bound word.toList := by
  by_cases covered : ∀ a ∈ word.toList, a ∈ m.input
  · obtain ⟨b, run, decides⟩ := accepts_ok covered
    rw [run, ← decides]
    exact ⟨fun same => ⟨covered, Except.ok.inj same⟩, fun same => congrArg Except.ok same.2⟩
  · refine iff_of_false (fun run => ?_) fun both => covered both.1
    obtain ⟨e, failure, _⟩ := Alphabet.check_error covered
    rw [accepts, failure] at run
    cases run

/-! ### Composing and carrying over -/

theorem Waits.trans (first : m.Waits j c d) (second : m.Waits k d e) : m.Waits (j + k) c e := by
  induction first with
  | stay => exact second.mono (Nat.le_add_left ..)
  | @move j c d d' move _ ih =>
      rw [Nat.add_right_comm]
      exact .move move (ih second)

theorem Run.wait (before : m.Waits j c d) (run : m.Run k d w e) : m.Run (j + k) c w e := by
  cases run with
  | done waits => exact .done (before.trans waits)
  | read waits move rest => exact .read (before.trans waits) move (rest.mono (Nat.le_add_left ..))

section Simulation

variable {R : Configuration → Configuration → Prop}
  (simulates : ∀ {a c c' d}, R c c' → m.Move a c d → ∃ d', m'.Move a c' d' ∧ R d d')

include simulates

theorem Waits.simulate {c' : Configuration} (waits : m.Waits k c d) (related : R c c') :
    ∃ d', m'.Waits k c' d' ∧ R d d' := by
  induction waits generalizing c' with
  | stay => exact ⟨c', .stay, related⟩
  | move move _ ih =>
      obtain ⟨b', move', related⟩ := simulates related move
      obtain ⟨d', waits', related⟩ := ih related
      exact ⟨d', .move move' waits', related⟩

/-- An automaton that can follow every move of another one has its runs. -/
theorem Run.simulate {c' : Configuration} (run : m.Run k c w d) (related : R c c') :
    ∃ d', m'.Run k c' w d' ∧ R d d' := by
  induction run generalizing c' with
  | done waits =>
      obtain ⟨d', waits', related⟩ := waits.simulate simulates related
      exact ⟨d', .done waits', related⟩
  | read waits move _ ih =>
      obtain ⟨b', waits', related⟩ := waits.simulate simulates related
      obtain ⟨e', move', related⟩ := simulates related move
      obtain ⟨d', run', related⟩ := ih related
      exact ⟨d', .read waits' move' run', related⟩

end Simulation

end PDA

end Automata
