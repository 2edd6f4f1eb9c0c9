import Automata.Proofs.DFA.Determinize

/-! # Sets of states that share a name

The subset construction knows sets by their names. It always yields an automaton, but where two
sets share a name the later one decides the moves, and some automaton on the same states loses its
language. So the names of the states separate their sets if and only if the construction keeps the
language of every automaton on them.
-/

namespace Automata

namespace NFA

variable {n : NFA} {d : DFA} {S T U : SortedSet State} {p q : State} {a b c : Char}
  {w : List Char}

/-! ### What the construction yields -/

/-- The last set of a list that has a given name. -/
def lastNamed (l : List (SortedSet State)) (p : State) : Option (SortedSet State) :=
  l.reverse.find? fun S => decide (subsetState S = p)

/-- Among sets of one name the last one decides the moves. -/
theorem get?_subsetMoves (letter : c ∈ n.alphabet) (l : List (SortedSet State)) :
    (Table.ofList (l.flatMap n.subsetMoves)).get? (p, Symbol.ofChar c) =
      (lastNamed l p).map fun S => subsetState (n.advance S c) := by
  induction l using List.reverseRecOn with
  | nil => rfl
  | append_singleton l S ih =>
      have split : Table.ofList ((l ++ [S]).flatMap n.subsetMoves) =
          (Table.ofList (l.flatMap n.subsetMoves)).putAll (n.subsetMoves S) := by
        rw [List.flatMap_append, List.flatMap_singleton, Table.ofList_append]
      rw [split, lastNamed, List.reverse_append, List.reverse_singleton, List.singleton_append]
      by_cases named : subsetState S = p
      · rw [List.find?_cons_of_pos (by simpa using named), Option.map_some]
        have written : ((p, Symbol.ofChar c), subsetState (n.advance S c)) ∈ n.subsetMoves S :=
          mem_subsetMoves.mpr ⟨c, letter, by rw [named], rfl⟩
        refine Table.get?_putAll_of_mem (.inl written) fun u move => ?_
        obtain ⟨b, _, same, rfl⟩ := mem_subsetMoves.mp move
        rw [Symbol.ofChar_injective (congrArg Prod.snd same)]
      · rw [List.find?_cons_of_neg (by simpa using named), Table.get?_putAll_of_not_mem]
        · exact ih
        · intro e move same
          obtain ⟨b, _, key, _⟩ := mem_subsetMoves.mp move
          exact named (congrArg Prod.fst (key.symm.trans same))

theorem exists_lastNamed (member : S ∈ n.subsets) :
    ∃ T, lastNamed n.subsets (subsetState S) = some T := by
  refine Option.isSome_iff_exists.mp (List.find?_isSome.mpr ⟨S, ?_, decide_eq_true rfl⟩)
  exact List.mem_reverse.mpr member

/-- The subset construction never fails. -/
theorem determinize_ok (n : NFA) :
    ∃ d, n.determinize = .ok d ∧ d.toMoveDiagram = n.subsetDiagram := by
  have named {S : SortedSet State} (member : S ∈ n.subsets) :
      subsetState S ∈ n.subsetDiagram.states :=
    SortedSet.mem_ofList.mpr (List.mem_map.mpr ⟨S, member, rfl⟩)
  rw [determinize_eq]
  apply DFA.ofDiagram_ok
  · exact named startSet_mem_subsets
  · intro p final
    obtain ⟨S, kept, rfl⟩ := List.mem_map.mp (SortedSet.mem_ofList.mp final)
    exact named (List.mem_filter.mp kept).1
  · intro p a q move
    have entry := (Table.mem_of_get?_putAll move).resolve_right (by rintro ⟨⟩)
    obtain ⟨S, member, move⟩ := List.mem_flatMap.mp entry
    obtain ⟨c, letter, key, rfl⟩ := mem_subsetMoves.mp move
    cases key
    exact ⟨named member, Alphabet.ofChar_mem_symbols.mpr letter,
      named (advance_mem_subsets member letter)⟩
  · intro p state c letter
    obtain ⟨S, member, rfl⟩ := List.mem_map.mp (SortedSet.mem_ofList.mp state)
    obtain ⟨T, last⟩ := exists_lastNamed member
    have move := get?_subsetMoves (p := subsetState S) letter n.subsets
    rw [last, Option.map_some] at move
    exact ⟨_, move⟩

/-- What the construction yields moves as the last set of each name does. -/
theorem next_determinize (diagram : d.toMoveDiagram = n.subsetDiagram) (letter : c ∈ n.alphabet)
    (p : State) :
    d.next p c = (lastNamed n.subsets p).map fun S => subsetState (n.advance S c) := by
  rw [DFA.next, diagram]
  exact get?_subsetMoves letter n.subsets

/-- Characters that lead to equal names everywhere are not told apart. -/
theorem recognizesFrom_determinize (diagram : d.toMoveDiagram = n.subsetDiagram)
    (ha : a ∈ n.alphabet) (hb : b ∈ n.alphabet)
    (alike : ∀ S, subsetState (n.advance S a) = subsetState (n.advance S b)) (p : State) :
    d.recognizesFrom p (a :: w) = d.recognizesFrom p (b :: w) := by
  have same : d.next p a = d.next p b := by
    rw [next_determinize diagram ha, next_determinize diagram hb]
    simp only [alike]
  rw [DFA.recognizesFrom, DFA.recognizesFrom, DFA.run_cons, DFA.run_cons, same]

/-! ### An automaton that tells two sets apart -/

/-- The characters 0 and 1. -/
def binary : Alphabet := ⟨.ofList ['0', '1'], by decide, by decide⟩

/-- From one state 0 leads to every member of a set and 1 to every member of another. -/
def probeEdges (start : State) (S T : SortedSet State) : EdgeSet :=
  (S.map fun q => ⟨start, Symbol.ofChar '0', q⟩).union
    (T.map fun q => ⟨start, Symbol.ofChar '1', q⟩)

theorem mem_probeEdges {start : State} {s : Symbol} :
    ⟨p, s, q⟩ ∈ probeEdges start S T ↔
      p = start ∧ (s = Symbol.ofChar '0' ∧ q ∈ S ∨ s = Symbol.ofChar '1' ∧ q ∈ T) := by
  simp only [probeEdges, SortedSet.mem_union, SortedSet.mem_map, Edge.mk.injEq]
  constructor
  · rintro (⟨r, member, rfl, rfl, rfl⟩ | ⟨r, member, rfl, rfl, rfl⟩)
    · exact ⟨rfl, .inl ⟨rfl, member⟩⟩
    · exact ⟨rfl, .inr ⟨rfl, member⟩⟩
  · rintro ⟨rfl, ⟨rfl, member⟩ | ⟨rfl, member⟩⟩
    · exact .inl ⟨q, member, rfl, rfl, rfl⟩
    · exact .inr ⟨q, member, rfl, rfl, rfl⟩

/-- The automaton of these edges, on the states of another one. It accepts in a single state. -/
def probe (n : NFA) {S T : SortedSet State} {p : State} (hS : S ⊆ n.states) (hT : T ⊆ n.states)
    (hp : p ∈ n.states) : NFA where
  states := n.states
  alphabet := binary
  edges := probeEdges n.start S T
  start := n.start
  accepting := .singleton p
  closed := by
    refine ⟨n.closed.start_mem, fun q final => ?_, fun e edge => ?_, fun e edge => ?_⟩
    · exact SortedSet.mem_singleton.mp final ▸ hp
    · exact (mem_probeEdges.mp edge).1 ▸ n.closed.start_mem
    · rcases (mem_probeEdges.mp edge).2 with ⟨_, member⟩ | ⟨_, member⟩
      · exact hS _ member
      · exact hT _ member
  label_mem e edge := by
    rcases (mem_probeEdges.mp edge).2 with ⟨label, _⟩ | ⟨label, _⟩
    · exact .inr (Alphabet.mem_symbols.mpr ⟨'0', by decide, label⟩)
    · exact .inr (Alphabet.mem_symbols.mpr ⟨'1', by decide, label⟩)

section Probe

variable {hS : S ⊆ n.states} {hT : T ⊆ n.states} {hp : p ∈ n.states}

theorem mem_epsilonClosure_probe : q ∈ (n.probe hS hT hp).epsilonClosure U ↔ q ∈ U := by
  rw [mem_epsilonClosure]
  constructor
  · intro ⟨r, member, path⟩
    cases path with
    | nil => exact member
    | epsilon edge _ =>
        rcases (mem_probeEdges.mp edge).2 with ⟨label, _⟩ | ⟨label, _⟩
        · exact absurd label (by decide)
        · exact absurd label (by decide)
  · intro member
    exact ⟨q, member, .nil⟩

theorem mem_advance_probe : q ∈ (n.probe hS hT hp).advance U c ↔
    n.start ∈ U ∧ (c = '0' ∧ q ∈ S ∨ c = '1' ∧ q ∈ T) := by
  have reads {b : Char} : Symbol.ofChar c = Symbol.ofChar b ↔ c = b :=
    ⟨Symbol.ofChar_injective, congrArg Symbol.ofChar⟩
  rw [advance, mem_epsilonClosure_probe, mem_move]
  constructor
  · intro ⟨r, member, edge⟩
    obtain ⟨rfl, target⟩ := mem_probeEdges.mp edge
    exact ⟨member, by simpa only [reads] using target⟩
  · intro ⟨member, target⟩
    exact ⟨n.start, member, mem_probeEdges.mpr ⟨rfl, by simpa only [reads] using target⟩⟩

theorem recognizes_probe : (n.probe hS hT hp).recognizes [c] = true ↔
    c = '0' ∧ p ∈ S ∨ c = '1' ∧ p ∈ T := by
  have start : n.start ∈ (n.probe hS hT hp).startSet := by
    rw [startSet, mem_epsilonClosure_probe]
    exact SortedSet.mem_singleton.mpr rfl
  rw [recognizes, isAccepting, SortedSet.meets_iff, advanceAll, List.foldl_cons, List.foldl_nil]
  constructor
  · intro found
    obtain ⟨q, reached, final⟩ := found
    obtain rfl := SortedSet.mem_singleton.mp final
    exact (mem_advance_probe.mp reached).2
  · intro target
    exact ⟨p, mem_advance_probe.mpr ⟨start, target⟩, SortedSet.mem_singleton.mpr rfl⟩

/-- If the two sets share their name, no set tells 0 and 1 apart by name. -/
theorem subsetState_advance_probe (same : subsetState S = subsetState T) :
    subsetState ((n.probe hS hT hp).advance U '0') =
      subsetState ((n.probe hS hT hp).advance U '1') := by
  by_cases start : n.start ∈ U
  · have first : (n.probe hS hT hp).advance U '0' = S :=
      SortedSet.ext fun q => by simp [mem_advance_probe, start]
    have second : (n.probe hS hT hp).advance U '1' = T :=
      SortedSet.ext fun q => by simp [mem_advance_probe, start]
    rw [first, second, same]
  · have equal : (n.probe hS hT hp).advance U '0' = (n.probe hS hT hp).advance U '1' :=
      SortedSet.ext fun q => by simp [mem_advance_probe, start]
    rw [equal]

end Probe

/-! ### Which names keep the language -/

/-- If the construction keeps the language of the automaton that tells two sets of one name apart
    at a state, the state is in both or in neither. -/
theorem mem_of_probe (hS : S ⊆ n.states) (hT : T ⊆ n.states)
    (same : subsetState S = subsetState T) (member : p ∈ S)
    (preserved : ∀ m : NFA, m.states = n.states →
      ∃ d, m.determinize = .ok d ∧ ∀ word, d.accepts word = m.accepts word) : p ∈ T := by
  let m := n.probe hS hT (hS p member)
  obtain ⟨d, built, accepts⟩ := preserved m rfl
  obtain ⟨d', built', diagram⟩ := m.determinize_ok
  obtain rfl : d = d' := Except.ok.inj (built.symm.trans built')
  have alphabet : d.alphabet = m.alphabet := by rw [diagram]; rfl
  have zero : '0' ∈ binary := by decide
  have one : '1' ∈ binary := by decide
  have recognizes {c : Char} (letter : c ∈ binary) :
      d.recognizes [c] = m.recognizes [c] := by
    refine DFA.recognizes_eq_of_accepts alphabet accepts fun b member => ?_
    exact List.mem_singleton.mp member ▸ letter
  have confused : d.recognizes ['0'] = d.recognizes ['1'] :=
    recognizesFrom_determinize diagram zero one (fun _ => subsetState_advance_probe same) d.start
  have reads : m.recognizes ['0'] = true := recognizes_probe.mpr (.inl ⟨rfl, member⟩)
  rw [← recognizes zero, confused, recognizes one] at reads
  simpa using recognizes_probe.mp reads

/-- The names of some states separate their sets if and only if the subset construction keeps the
    language of every automaton on these states. -/
theorem separate_iff_determinize_preserves (n : NFA) :
    n.Separate ↔ ∀ m : NFA, m.states = n.states →
      ∃ d, m.determinize = .ok d ∧ ∀ word, d.accepts word = m.accepts word := by
  constructor
  · intro separate m states
    have separate' : m.Separate := by
      rw [Separate, states]
      exact separate
    obtain ⟨d, built, _, accepts⟩ := determinize_accepts separate'
    exact ⟨d, built, accepts⟩
  · intro preserved S T hS hT same
    refine SortedSet.ext fun p => ⟨fun member => ?_, fun member => ?_⟩
    · exact mem_of_probe hS hT same member preserved
    · exact mem_of_probe hT hS same.symm member preserved

/-- One state is named as the set of the two others is. -/
def ambiguous : StateDiagram where
  states := .ofList [⟨"p"⟩, ⟨"q"⟩, ⟨"p, q"⟩]
  alphabet := binary
  edges := .ofList [⟨⟨"p"⟩, "0", ⟨"p, q"⟩⟩, ⟨⟨"p"⟩, "1", ⟨"p"⟩⟩, ⟨⟨"p"⟩, "1", ⟨"q"⟩⟩]
  start := ⟨"p"⟩
  accepting := .singleton ⟨"p, q"⟩

/-- The subset construction takes the set of two states for the accepting one. -/
theorem determinize_ambiguous :
    ∃ n d, ofDiagram ambiguous = .ok n ∧ n.determinize = .ok d ∧
      n.accepts "1" = .ok false ∧ d.accepts "1" = .ok true := by
  obtain ⟨n, read, rejected⟩ : ∃ n, ofDiagram ambiguous = .ok n ∧ n.accepts "1" = .ok false ∧
      (n.determinize.toOption.any fun d => decide (d.accepts "1" = .ok true)) = true :=
    exists_ok_of_any (by decide +kernel)
  obtain ⟨d, built, accepted⟩ := exists_ok_of_any rejected.2
  exact ⟨n, d, read, built, rejected.1, accepted⟩

end NFA

end Automata
