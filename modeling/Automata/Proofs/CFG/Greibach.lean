import Automata.Proofs.CFG.ToPDA

/-! # Grammars in Greibach form

When every output begins with a terminal, an expansion is followed by a read. Between two reads
there are then no more ε-moves than an output has elements, and the compiled automaton has more
states than that, so the bound that it has by default loses no word.
-/

namespace Automata.CFG

/-- Every output begins with a terminal. -/
def IsGreibach (c : CFG) : Prop :=
  ∀ p ∈ c.grammar.productions.toList, p.output.elements.head?.any Element.isTerminal = true

instance (c : CFG) : Decidable c.IsGreibach :=
  inferInstanceAs (Decidable (∀ p ∈ c.grammar.productions.toList, _))

/-- A role is played by a state of a diagram. -/
def Occurs (roles : State → Role → Prop) (d : StackDiagram) (X : Role) : Prop :=
  ∃ p ∈ d.states, roles p X

variable {c : CFG} {roles : State → Role → Prop} {d : StackDiagram} {m : PDA} {a : Allocator}
  {X Y : Role} {p : State} {name : String} {output : Form} {popped tape pushed : Symbol}
  {e : Element} {es f : List Element} {w : List Char} {k : Nat}

theorem IsGreibach.begins (greibach : c.IsGreibach)
    (produced : output ∈ c.grammar.outputs name) :
    ∃ a es, output.elements = .terminal a :: es := by
  have first := greibach _ (Grammar.mem_outputs.mp produced)
  cases whole : output.elements with
  | nil => simp [whole] at first
  | cons e es =>
      cases e with
      | terminal a => exact ⟨a, es, rfl⟩
      | nonterminal other => simp [whole, Element.isTerminal] at first

/-! ### Counting states -/

theorem nodup_tails {α : Type} : ∀ es : List α, es.tails.Nodup
  | [] => List.nodup_singleton []
  | e :: es => by
      refine List.nodup_cons.mpr ⟨fun member => ?_, nodup_tails es⟩
      have longer := ((List.mem_tails _ _).mp member).length_le
      exact Nat.not_succ_le_self _ longer

namespace Realizes

variable (realizes : c.Realizes roles d)

include realizes

/-- Different roles are played by different states. -/
theorem length_le_size {Xs : List Role} (nodup : Xs.Nodup) (occur : ∀ X ∈ Xs, Occurs roles d X) :
    Xs.length ≤ d.states.size := by
  choose! state inside role using occur
  have different : (Xs.map state).Nodup := by
    refine nodup.map_on fun X listed Y listed' same => ?_
    exact realizes.unique (role X listed) (same ▸ role Y listed')
  have within : Xs.map state ⊆ d.states.toList := by
    intro p member
    obtain ⟨X, listed, rfl⟩ := List.mem_map.mp member
    exact inside X listed
  simpa [SortedSet.size] using (List.subperm_of_subset different within).length_le

variable (closed : d.Closed)

include closed

theorem occurs_start : Occurs roles d .start := ⟨_, closed.start_mem, realizes.start⟩

/-- Whatever role a move leads to is played by a state. -/
theorem occurs_of_move (occurs : Occurs roles d X) (move : RoleMove c X popped tape Y pushed) :
    Occurs roles d Y := by
  obtain ⟨p, _, role⟩ := occurs
  obtain ⟨q, target, rule⟩ := realizes.complete role move
  exact ⟨q, closed.target_mem _ rule, target⟩

theorem occurs_loop : Occurs roles d (.owing []) :=
  realizes.occurs_of_move closed
    (realizes.occurs_of_move closed (realizes.occurs_start closed) .mark) .enter

/-- A state that owes some elements is followed by states that owe less and less. -/
theorem occurs_tails (occurs : Occurs roles d (.owing es)) (used : ∀ e ∈ es, c.Uses e) :
    ∀ fs ∈ es.tails, Occurs roles d (.owing fs) := by
  induction es with
  | nil =>
      intro fs member
      obtain rfl := List.mem_singleton.mp member
      exact occurs
  | cons e es ih =>
      intro fs member
      rcases List.mem_cons.mp member with rfl | shorter
      · exact occurs
      · exact ih (realizes.occurs_of_move closed occurs (.push (used e (by simp))))
          (fun e' later => used e' (List.mem_cons_of_mem e later)) fs shorter

/-- There are a state for each number of elements that are owed, and three more. -/
theorem owed_le_size (occurs : Occurs roles d (.owing es)) (used : ∀ e ∈ es, c.Uses e) :
    es.length + 4 ≤ d.states.size := by
  have start := realizes.occurs_start closed
  have marked := realizes.occurs_of_move closed start .mark
  have finish := realizes.occurs_of_move closed (realizes.occurs_loop closed) .leave
  have tails := realizes.occurs_tails closed occurs used
  let Xs : List Role := .start :: .marked :: .finish :: es.tails.map .owing
  have nodup : Xs.Nodup := by
    have owing : (es.tails.map Role.owing).Nodup :=
      (nodup_tails es).map fun fs gs same => Role.owing.inj same
    simp [Xs, owing]
  have occur : ∀ X ∈ Xs, Occurs roles d X := by
    simpa [Xs, start, marked, finish] using tails
  have counted : Xs.length = es.length + 4 := by simp [Xs]
  rw [← counted]
  exact realizes.length_le_size nodup occur

/-- There are more states than any output has elements. -/
theorem output_le_size (produced : output ∈ c.grammar.outputs name) :
    output.elements.length + 3 ≤ d.states.size := by
  have loop := realizes.occurs_loop closed
  cases last : output.elements.reverse with
  | nil =>
      have := realizes.owed_le_size closed loop (by simp)
      simp only [List.reverse_eq_nil_iff.mp last, List.length_nil] at this ⊢
      omega
  | cons e es =>
      have used := fun e' member => (arises_of_reverse produced last e' member).uses
      have next := realizes.occurs_of_move closed loop (.expand produced last)
      have := realizes.owed_le_size closed next fun e' owed => used e' (List.mem_cons_of_mem e owed)
      have whole : output.elements.length = es.length + 1 := by
        rw [← List.length_reverse, last, List.length_cons]
      omega

end Realizes

/-! ### Runs -/

namespace Realizes

variable (realizes : c.Realizes roles m.toStackDiagram) (legible : c.Legible)
  (greibach : c.IsGreibach)

section

variable (room : ∀ name, ∀ output ∈ c.grammar.outputs name, output.elements.length ≤ k)

include realizes legible greibach room

/-- One expansion at most brings the next character to the top of the stack. -/
theorem waits_exposing {b : Char} (spelled : c.grammar.Spells f (b :: w))
    (used : ∀ e ∈ f, c.Uses e) (role : roles p (.owing [])) :
    ∃ q g, roles q (.owing []) ∧ (∀ e ∈ Element.terminal b :: g, c.Uses e) ∧
      c.grammar.Spells g w ∧ m.Waits k ⟨p, f.map Element.text ++ [Symbol.bottom]⟩
        ⟨q, Symbol.ofChar b :: (g.map Element.text ++ [Symbol.bottom])⟩ := by
  cases spelled with
  | terminal rest => exact ⟨p, _, role, used, rest, .stay⟩
  | @nonterminal _ output g _ produced rest =>
      obtain ⟨b', es, begins⟩ := greibach.begins produced
      obtain ⟨q, loop, waits⟩ :=
        realizes.waits_expanding legible.clear.epsilon_not_mem produced role
          (g.map Element.text ++ [Symbol.bottom])
      have fits : max 1 output.elements.length ≤ k := by
        have := room _ _ produced
        simp only [begins, List.length_cons] at this ⊢
        omega
      have known := uses_expanded produced used
      replace waits := waits.mono fits
      rw [begins] at rest known waits
      cases rest with
      | terminal rest =>
          refine ⟨q, es ++ g, loop, known, rest, ?_⟩
          rw [List.map_append, List.append_assoc]
          exact waits

/-- A form is read off the stack with no more ε-moves at a time than the longest output has
    elements. -/
theorem run_of_spells_within (positive : 1 ≤ k) (spelled : c.grammar.Spells f w)
    (used : ∀ e ∈ f, c.Uses e) (role : roles p (.owing [])) :
    ∃ D, D.state ∈ m.accepting ∧ m.Run k ⟨p, f.map Element.text ++ [Symbol.bottom]⟩ w D := by
  -- the induction is on the word: an expansion alone would leave the moves of the next one to count
  induction w generalizing f p with
  | nil =>
      cases spelled with
      | nil =>
          obtain ⟨D, accepting, waits⟩ := realizes.waits_leaving role
          exact ⟨D, accepting, .done (waits.mono positive)⟩
      | nonterminal produced rest =>
          obtain ⟨b, es, begins⟩ := greibach.begins produced
          rw [begins] at rest
          cases rest
  | cons b w ih =>
      obtain ⟨q, g, loop, known, rest, waits⟩ :=
        realizes.waits_exposing legible greibach room spelled used role
      obtain ⟨r, loop', move⟩ := realizes.move_reading (known _ List.mem_cons_self) loop
        (g.map Element.text ++ [Symbol.bottom])
      obtain ⟨D, accepting, run⟩ :=
        ih rest (fun e member => known e (List.mem_cons_of_mem _ member)) loop'
      exact ⟨D, accepting, .read waits move run⟩

end

include realizes legible greibach

/-- What is generated is read with no more ε-moves at a time than there are states. -/
theorem hasRun_of_generates_within (generated : c.Generates w) :
    m.HasRun m.states.size w := by
  have spelled : c.grammar.Spells [.nonterminal c.start] w :=
    Grammar.derives_iff_spells.mp generated
  obtain ⟨q, loop, waits⟩ := realizes.waits_entering legible.clear.epsilon_not_mem
  have longest name output (produced : output ∈ c.grammar.outputs name) :
      output.elements.length + 3 ≤ m.states.size := realizes.output_le_size m.closed produced
  obtain ⟨k, whole⟩ : ∃ k, m.states.size = 2 + (k + 1) := by
    cases spelled with
    | nonterminal produced _ =>
        have := longest _ _ produced
        exact ⟨m.states.size - 3, by omega⟩
  have room name output (produced : output ∈ c.grammar.outputs name) :
      output.elements.length ≤ k + 1 := by
    have := longest name output produced
    omega
  obtain ⟨D, accepting, run⟩ := realizes.run_of_spells_within legible greibach room
    (Nat.le_add_left 1 k) spelled uses_of_mem_start loop
  rw [whole]
  exact ⟨D, accepting, .wait waits run⟩

end Realizes

/-! ### The default bound -/

/-- A grammar in Greibach form has an automaton whose bound is its number of states, and which
    answers for every word whether it is generated, if the allocator has as many states left as the
    automaton takes. If it has fewer left, the numbers run out. -/
theorem toPDA_default_accepts_iff_generates {rules : List String} {start : String} {c : CFG}
    (read : ofRules rules start = .ok c) (greibach : c.IsGreibach) (a : Allocator) :
    (a.largest = none → a.Supplies c.stateCount) ∧
    (a.Supplies c.stateCount →
      ∃ m, ((c.toPDA none).runFrom a).1 = .ok m ∧ m.bound = m.states.size ∧
        ∀ word : String, (∀ x ∈ word.toList, x ∈ c.alphabet) →
          ∃ b, m.accepts word = .ok b ∧ (b = true ↔ c.Generates word.toList)) ∧
    (¬ a.Supplies c.stateCount → ((c.toPDA none).runFrom a).1 = .error .numbersExhausted) := by
  have legible := legible_of_ofRules read
  refine ⟨fun endless => Building.supplies_of_endless endless _, fun enough => ?_,
    fun lacking => toPDA_of_lacking legible lacking none⟩
  obtain ⟨d, b, run, closed, input, _, realizes⟩ :=
    (drawDiagram_takes legible.clear.epsilon_not_mem).ok_of_supplies
      (drawDiagram_ensures legible) enough
  let m : PDA := ⟨d, closed, d.states.size⟩
  refine ⟨m, ?_, rfl, fun word covered => ?_⟩
  · rw [toPDA_of_drawDiagram run, PDA.ofDiagram, StackDiagram.checkClosed_ok closed]
    rfl
  · have covered' : ∀ x ∈ word.toList, x ∈ m.input := input ▸ covered
    obtain ⟨b, answer, reads⟩ := m.accepts_ok covered'
    refine ⟨b, answer, reads.trans ⟨fun has => ?_, fun generated => ?_⟩⟩
    · exact realizes.generates_of_hasRun legible has fun x member =>
        Alphabet.ne_epsilon (covered x member)
    · exact realizes.hasRun_of_generates_within (m := m) legible greibach generated

/-- The words of as many `a` as `b`, the former first, in Greibach form, compiled with an allocator
    that is limited but has the four states that are taken. -/
theorem toPDA_default_accepts_aabb :
    ∃ c, ofRules ["S -> aSB | aB", "B -> b"] "S" = .ok c ∧ c.IsGreibach ∧ c.stateCount = 4 ∧
      (Allocator.startingAt "q" 0 ∅).Supplies c.stateCount ∧
        ∃ m, ((c.toPDA none).runFrom (.startingAt "q" 0 ∅)).1 = .ok m ∧
          m.accepts "aabb" = .ok true := by
  let outputs : List Form := [⟨[.terminal 'a', .nonterminal "S", .nonterminal "B"]⟩,
    ⟨[.terminal 'a', .nonterminal "B"]⟩]
  let close : Form := ⟨[.terminal 'b']⟩
  have enough : (Allocator.startingAt "q" 0 ∅).Supplies 4 := by decide +kernel
  -- from here on the largest number is not looked at any more
  generalize Allocator.startingAt "q" 0 ∅ = a at enough ⊢
  obtain ⟨c, read, start, greibach, produced, closes, letters, count⟩ :
      ∃ c, ofRules ["S -> aSB | aB", "B -> b"] "S" = .ok c ∧ c.start = "S" ∧ c.IsGreibach ∧
        (∀ f ∈ outputs, f ∈ c.grammar.outputs "S") ∧ close ∈ c.grammar.outputs "B" ∧
          ('a' ∈ c.alphabet ∧ 'b' ∈ c.alphabet) ∧ c.stateCount = 4 :=
    exists_ok_of_any (by decide +kernel)
  rw [← count] at enough
  obtain ⟨m, run, _, exact⟩ :=
    (toPDA_default_accepts_iff_generates read greibach a).2.1 enough
  have wrap := produced _ List.mem_cons_self
  have stop := produced _ (List.mem_cons_of_mem _ List.mem_cons_self)
  have spelled : c.grammar.Spells [.nonterminal c.start] "aabb".toList := by
    rw [start]
    exact .nonterminal wrap (.terminal (.nonterminal stop (.terminal
      (.nonterminal closes (.terminal (.nonterminal closes (.terminal .nil)))))))
  have covered : ∀ x ∈ "aabb".toList, x ∈ c.alphabet := by simp [letters]
  obtain ⟨b, answer, accepts⟩ := exact "aabb" covered
  obtain rfl := accepts.mpr (Grammar.derives_iff_spells.mpr spelled)
  exact ⟨c, read, greibach, count, enough, m, run, answer⟩

/-- Even the grammar of one letter, whose automaton takes one state, has none once the numbers have
    run out. -/
theorem toPDA_default_runs_out :
    ∃ c, ofRules ["S -> a"] "S" = .ok c ∧ c.IsGreibach ∧ c.Generates "a".toList ∧
      (∀ x ∈ "a".toList, x ∈ c.alphabet) ∧
        ((c.toPDA none).runFrom (.startingAt "q" (Text.largestNumber + 1) ∅)).1 =
          .error .numbersExhausted := by
  let output : Form := ⟨[.terminal 'a']⟩
  obtain ⟨c, read, start, greibach, produced, letter, count⟩ :
      ∃ c, ofRules ["S -> a"] "S" = .ok c ∧ c.start = "S" ∧ c.IsGreibach ∧
        output ∈ c.grammar.outputs "S" ∧ 'a' ∈ c.alphabet ∧ c.stateCount = 1 :=
    exists_ok_of_any (by decide +kernel)
  have spelled : c.grammar.Spells [.nonterminal c.start] "a".toList := by
    rw [start]
    exact .nonterminal produced (.terminal .nil)
  have covered : ∀ x ∈ "a".toList, x ∈ c.alphabet := by simp [letter]
  have lacking : ¬ (Allocator.startingAt "q" (Text.largestNumber + 1) ∅).Supplies c.stateCount := by
    rw [count]
    refine Allocator.not_supplies_of_largest rfl (Int.le_refl _) ?_
    dsimp only [Allocator.startingAt]
    omega
  exact ⟨c, read, greibach, Grammar.derives_iff_spells.mpr spelled, covered,
    toPDA_of_lacking (legible_of_ofRules read) lacking none⟩

end Automata.CFG
