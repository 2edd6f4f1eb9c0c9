import Automata.Proofs.GNFA.Eliminate
import Automata.Proofs.NFA.Fragment
import Automata.Proofs.Regex.Printer

/-! # Extracted patterns

What is extracted from an automaton is read back if the characters on its edges stand for themselves
outside of choices. From an automaton that reads one of several characters and stops, exactly the
label of these characters is extracted.
-/

namespace Automata

/-! ### Labels -/

theorem Alphabet.symbol_ne_epsilon {A : Alphabet} {a : Symbol} (member : a ∈ A.symbols) :
    a ≠ Symbol.epsilon := by
  rintro rfl
  obtain ⟨c, letter, same⟩ := mem_symbols.mp member
  exact ne_epsilon letter (Symbol.ofChar_injective same.symm)

namespace Regex

variable {A : Alphabet} {symbols letters : SortedSet Symbol} {a : Symbol}

theorem StandsForItself.ne_bracket {c : Char} (stands : StandsForItself A c) : c ≠ ']' := by
  rintro rfl
  rcases stands with plain | point
  · exact plain (by decide)
  · exact absurd point.1 (by decide)

theorem ofLetters_cases (member : a ∈ letters) :
    (letters = .singleton a ∧ ofLetters letters = .lit a) ∨
      (letters ≠ .singleton a ∧ ofLetters letters = .choice letters) := by
  rw [← SortedSet.mem_toList] at member
  unfold ofLetters
  split
  · rename_i none
    rw [none] at member
    cases member
  · rename_i b only
    rw [only] at member
    obtain rfl := List.mem_singleton.mp member
    refine .inl ⟨SortedSet.ext fun x => ?_, rfl⟩
    rw [← SortedSet.mem_toList, only, SortedSet.mem_singleton, List.mem_singleton]
  · rename_i several
    refine .inr ⟨fun same => several a ?_, rfl⟩
    rw [same]
    rfl

/-- A single character is a literal, and several characters are a choice. -/
theorem ofSymbols_cases (letters : ∀ b ∈ symbols, b ≠ Symbol.epsilon) (member : a ∈ symbols) :
    (symbols = .singleton a ∧ ofSymbols symbols = .lit a) ∨
      (symbols ≠ .singleton a ∧ ofSymbols symbols = .choice symbols) := by
  have all : lettersOf symbols = symbols := SortedSet.ext fun b => by
    rw [mem_lettersOf]
    exact ⟨And.left, fun member => ⟨member, letters b member⟩⟩
  rw [ofSymbols_eq, if_neg fun waits => letters _ waits rfl, all]
  exact ofLetters_cases member

theorem isReadable_ofSymbols (readable : ∀ a ∈ symbols, a = Symbol.epsilon ∨
      ∃ c, StandsForItself A c ∧ a = Symbol.ofChar c) : (ofSymbols symbols).IsReadable A := by
  have letters : ∀ a ∈ lettersOf symbols, ∃ c, StandsForItself A c ∧ a = Symbol.ofChar c := by
    intro a member
    exact (readable a (mem_lettersOf.mp member).1).resolve_left (mem_lettersOf.mp member).2
  refine (hereditary_isReadable A).ofSymbols (fun a member => ?_) fun a member => ?_
  · obtain ⟨c, stands, same⟩ := letters a member
    exact ⟨c, same, stands⟩
  · obtain ⟨c, stands, same⟩ := letters a member
    exact ⟨c, stands.ne_bracket, same⟩

end Regex

/-! ### Whole automata -/

namespace NFA

variable {n : NFA}

/-- The extraction of a pattern always succeeds. It is the pattern of an expression of the same
    language, which has every property of the labels that elimination keeps. -/
theorem toPattern_runs (n : NFA) : ∃ (g : GNFA) (r : Regex), g.Generalizes n ∧
    (n.toPattern.runFrom (GNFA.bridgeAllocator n)).1 = .ok r.pattern ∧
    r.language n.alphabet = n.language ∧
    ∀ P, GNFA.Persistent P → (∀ s t, P s t (g.labels.label s t)) → P g.start g.accept r := by
  obtain ⟨g, c, run, generalizes⟩ := GNFA.ofNFA_generalizes n
  have covered := GNFA.persistent_of_hereditary (Regex.hereditary_isOver n.alphabet)
  obtain ⟨r, built, _, language⟩ := GNFA.toRegex_ok covered generalizes.isOver
  refine ⟨g, r, generalizes, ?_, ?_, fun P persistent holds => ?_⟩
  · rw [toPattern, toRegex, Building.runFrom_bind, Building.runFrom_bind, run]
    simp only [built, Building.runFrom_check, Building.runFrom_pure]
  · rw [← generalizes.language, ← language, generalizes.alphabet]
  · obtain ⟨s, again, kept, _⟩ := GNFA.toRegex_ok persistent holds
    obtain rfl : r = s := Except.ok.inj (built.symm.trans again)
    exact kept

/-- If the characters on the edges stand for themselves, then the pattern that is extracted is read
    as an expression of the automaton's language. -/
theorem toPattern_readable (readable : ∀ e ∈ n.edges, e.label = Symbol.epsilon ∨
      ∃ c, Regex.StandsForItself n.alphabet c ∧ e.label = Symbol.ofChar c) :
    ∃ text r, (n.toPattern.runFrom (GNFA.bridgeAllocator n)).1 = .ok text ∧
      Regex.parse text = .ok r ∧ r.IsOver n.alphabet ∧ r.language n.alphabet = n.language := by
  obtain ⟨g, r, generalizes, run, language, kept⟩ := n.toPattern_runs
  have labels : ∀ p q, (g.labels.label p q).IsReadable n.alphabet := by
    intro p q
    obtain ⟨symbols, label, known⟩ := generalizes.labels p q
    rw [label]
    apply Regex.isReadable_ofSymbols
    intro a member
    rcases known a member with waits | ⟨e, edge, rfl⟩
    · exact .inl waits
    · exact readable e edge
  have isReadable : r.IsReadable n.alphabet :=
    kept _ (GNFA.persistent_of_hereditary (Regex.hereditary_isReadable n.alphabet)) labels
  have isOver : r.IsOver n.alphabet :=
    kept _ (GNFA.persistent_of_hereditary (Regex.hereditary_isOver n.alphabet)) generalizes.isOver
  obtain ⟨s, parsed, same, covered⟩ := Regex.parse_pattern isReadable
  exact ⟨r.pattern, s, run, parsed, covered.mpr isOver, same.trans language⟩

end NFA

/-! ### A single choice -/

namespace GNFA

/-- Labels on the way from some states over one expression to the others. -/
inductive Crosses (beyond : State → Prop) (r : Regex) (s t : State) : Regex → Prop where
  | null : Crosses beyond r s t .null
  | stay : (beyond s ↔ beyond t) → Crosses beyond r s t .empty
  | cross : ¬beyond s → beyond t → Crosses beyond r s t r

variable {beyond : State → Prop} {r x y : Regex} {s t p : State}

/-- An expression that simplifying constructors do not take apart. -/
structure IsPlain (r : Regex) : Prop where
  factors : r.factors = [r]
  alternatives : r.alternatives = [r]
  not_null : r.isNull = false

theorem Crosses.unionOf (plain : IsPlain r) (first : Crosses beyond r s t x)
    (second : Crosses beyond r s t y) : Crosses beyond r s t (.unionOf [x, y]) := by
  have nothing : Regex.null.alternatives = [] := rfl
  have twice (z : Regex) (alone : z.alternatives = [z]) : Regex.unionOf [z, z] = z := by
    simp [Regex.unionOf, alone, Regex.distinct]
  have left (z : Regex) (alone : z.alternatives = [z]) : Regex.unionOf [z, .null] = z := by
    simp [Regex.unionOf, alone, nothing, Regex.distinct]
  have right (z : Regex) (alone : z.alternatives = [z]) : Regex.unionOf [.null, z] = z := by
    simp [Regex.unionOf, alone, nothing, Regex.distinct]
  cases first with
  | null =>
      cases second with
      | null => exact .null
      | stay same => exact .stay same
      | cross here there =>
          rw [right r plain.alternatives]
          exact .cross here there
  | stay same =>
      cases second with
      | null => exact .stay same
      | stay =>
          rw [twice .empty rfl]
          exact .stay same
      | cross here there => exact absurd (same.mpr there) here
  | cross here there =>
      cases second with
      | null =>
          rw [left r plain.alternatives]
          exact .cross here there
      | stay same => exact absurd (same.mpr there) here
      | cross =>
          rw [twice r plain.alternatives]
          exact .cross here there

theorem Crosses.concatOf (plain : IsPlain r) (first : Crosses beyond r s p x)
    (second : Crosses beyond r p t y) : Crosses beyond r s t (.concatOf [x, .empty, y]) := by
  have proper : Regex.empty.isNull = false := rfl
  have dropped : Regex.empty.factors = [] := rfl
  cases first with
  | null => exact .null
  | stay same =>
      cases second with
      | null => exact .null
      | stay same' => exact .stay (same.trans same')
      | cross here there =>
          have alone : Regex.concatOf [.empty, .empty, r] = r := by
            simp [Regex.concatOf, proper, dropped, plain.not_null, plain.factors]
          rw [alone]
          exact .cross (fun before => here (same.mp before)) there
  | cross here there =>
      cases second with
      | null =>
          have nothing : Regex.concatOf [r, .empty, .null] = .null := by
            simp [Regex.concatOf, Regex.isNull]
          rw [nothing]
          exact .null
      | stay same =>
          have alone : Regex.concatOf [r, .empty, .empty] = r := by
            simp [Regex.concatOf, proper, dropped, plain.not_null, plain.factors]
          rw [alone]
          exact .cross here (same.mp there)
      | cross before => exact absurd there before

theorem persistent_crosses (plain : IsPlain r) : Persistent (Crosses beyond r) where
  null _ _ := .null
  bypass direct enters loops leaves := by
    apply direct.unionOf plain
    cases loops with
    | null | stay => exact enters.concatOf plain leaves
    | cross before after => exact absurd after before

variable {A : Alphabet} {n : NFA} {g : GNFA} {start accept : State} {symbols : List Symbol}

theorem symbolsBetween_of_joined {E : EdgeSet} {a : Symbol}
    (joined : ∀ b, ⟨s, b, t⟩ ∈ E ↔ b = a) : symbolsBetween E s t = .singleton a :=
  SortedSet.ext fun b => by rw [mem_symbolsBetween, joined, SortedSet.mem_singleton]

/-- Between new end states, such an automaton has its own edges and two that wait. -/
theorem mem_edges_of_choiceDiagram
    (diagram : n.toStateDiagram = NFA.choiceDiagram A start accept symbols)
    (front back s t : State) (a : Symbol) :
    ⟨s, a, t⟩ ∈ (NFA.bridgedDiagram n front back).edges ↔
      (s = start ∧ t = accept ∧ a ∈ symbols) ∨ (s = front ∧ t = start ∧ a = Symbol.epsilon) ∨
        (s = accept ∧ t = back ∧ a = Symbol.epsilon) := by
  rw [NFA.wraps_bridgedDiagram.edges, diagram, NFA.mem_edges_choiceDiagram]
  simp only [NFA.choiceDiagram, SortedSet.mem_singleton, Edge.mk.injEq, exists_eq_left]
  constructor
  · rintro (⟨_, member, rfl, rfl, rfl⟩ | ⟨rfl, rfl, rfl⟩ | ⟨rfl, rfl, rfl⟩)
    · exact .inl ⟨rfl, rfl, member⟩
    · exact .inr (.inl ⟨rfl, rfl, rfl⟩)
    · exact .inr (.inr ⟨rfl, rfl, rfl⟩)
  · rintro (⟨rfl, rfl, member⟩ | ⟨rfl, rfl, rfl⟩ | ⟨rfl, rfl, rfl⟩)
    · exact .inl ⟨a, member, rfl, rfl, rfl⟩
    · exact .inr (.inl ⟨rfl, rfl, rfl⟩)
    · exact .inr (.inr ⟨rfl, rfl, rfl⟩)

/-- The labels of an automaton that reads one of several characters and stops. -/
theorem Generalizes.crosses (generalizes : g.Generalizes n) (different : start ≠ accept)
    (diagram : n.toStateDiagram = NFA.choiceDiagram A start accept symbols) (p q : State) :
    Crosses (fun p => p = accept ∨ p = g.accept) (Regex.ofSymbols (.ofList symbols)) p q
      (g.labels.label p q) := by
  have states (p : State) : p ∈ n.states ↔ p = start ∨ p = accept := by
    rw [diagram]
    exact NFA.mem_states_choiceDiagram
  have edges := mem_edges_of_choiceDiagram diagram g.start g.accept
  have freshStart := generalizes.start_fresh
  have freshAccept := generalizes.accept_fresh
  rw [states, not_or] at freshStart freshAccept
  have ends := g.closed.start_ne_accept
  rw [generalizes.label]
  by_cases joined : ∃ a, ⟨p, a, q⟩ ∈ (NFA.bridgedDiagram n g.start g.accept).edges
  · obtain ⟨a, edge⟩ := joined
    rcases (edges p q a).mp edge with ⟨rfl, rfl, _⟩ | ⟨rfl, rfl, _⟩ | ⟨rfl, rfl, _⟩
    · have between : symbolsBetween (NFA.bridgedDiagram n g.start g.accept).edges p q =
          .ofList symbols := by
        apply SortedSet.ext
        intro b
        rw [mem_symbolsBetween, edges, SortedSet.mem_ofList]
        simp [different, Ne.symm freshStart.1]
      rw [between]
      apply Crosses.cross
      · simp [different, Ne.symm freshAccept.1]
      · exact .inl rfl
    · have waits := symbolsBetween_of_joined (a := Symbol.epsilon) fun b => by
        rw [edges g.start q b]
        simp [freshStart]
      rw [waits]
      apply Crosses.stay
      simp [freshStart, ends, different, Ne.symm freshAccept.1]
    · have waits := symbolsBetween_of_joined (a := Symbol.epsilon) fun b => by
        rw [edges p g.accept b]
        simp [freshAccept, Ne.symm freshStart.2]
      rw [waits]
      exact .stay (by simp)
  · rw [symbolsBetween_eq_empty fun a edge => joined ⟨a, edge⟩]
    exact .null

end GNFA

/-- From an automaton that reads one of several characters and stops, the label of these characters
    is extracted. -/
theorem NFA.toPattern_of_choiceDiagram {A : Alphabet} {n : NFA} {start accept : State}
    {symbols : List Symbol} {a : Symbol} (known : ∀ s ∈ symbols, s ∈ A.symbols)
    (member : a ∈ symbols) (different : start ≠ accept)
    (diagram : n.toStateDiagram = choiceDiagram A start accept symbols) :
    (n.toPattern.runFrom (GNFA.bridgeAllocator n)).1 =
      .ok (Regex.ofSymbols (.ofList symbols)).pattern := by
  obtain ⟨g, r, generalizes, run, language, kept⟩ := n.toPattern_runs
  have letters : ∀ b ∈ SortedSet.ofList symbols, b ≠ Symbol.epsilon := fun b inside =>
    Alphabet.symbol_ne_epsilon (known b (SortedSet.mem_ofList.mp inside))
  have plain : GNFA.IsPlain (Regex.ofSymbols (.ofList symbols)) := by
    rcases Regex.ofSymbols_cases letters (SortedSet.mem_ofList.mpr member) with single | several
    · rw [single.2]
      exact ⟨rfl, rfl, rfl⟩
    · rw [several.2]
      exact ⟨rfl, rfl, rfl⟩
  have accepted : ∃ w, w ∈ r.language n.alphabet := by
    rw [language, language_of_choiceDiagram known different diagram]
    obtain ⟨c, _, rfl⟩ := Alphabet.mem_symbols.mp (known a member)
    exact ⟨[c], c, member, rfl⟩
  have crosses := kept _ (GNFA.persistent_crosses plain) (generalizes.crosses different diagram)
  have fresh : g.start ≠ accept := by
    rintro same
    apply generalizes.start_fresh
    rw [same, diagram]
    exact mem_states_choiceDiagram.mpr (.inr rfl)
  rw [run]
  cases crosses with
  | null =>
      obtain ⟨w, accepted⟩ := accepted
      rw [Regex.language_null] at accepted
      exact absurd accepted (Language.notMem_zero w)
  | stay same => exact absurd (same.mpr (.inr rfl)) (by simp [fresh, g.closed.start_ne_accept])
  | cross => rfl

end Automata
