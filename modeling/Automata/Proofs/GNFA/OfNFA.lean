import Automata.GNFA.Basic
import Automata.Proofs.GNFA.Language
import Automata.Proofs.NFA.Extend

/-! # From nondeterministic to generalized automata

The label of a pair matches what the edges between its states spell. Between bridge states this is a
generalized automaton, and it has the language of the original.
-/

namespace Automata

namespace GNFA

variable {E : EdgeSet} {S : SortedSet State} {p q : State} {A : Alphabet} {n k : NFA} {g : GNFA}
  {start accept : State} {a : Allocator}

/-- The labels on the edges from one state to another. -/
def symbolsBetween (E : EdgeSet) (p q : State) : SortedSet Symbol :=
  .ofList ((E.toList.filter fun e => decide (e.source = p ∧ e.target = q)).map Edge.label)

theorem mem_symbolsBetween {s : Symbol} : s ∈ symbolsBetween E p q ↔ ⟨p, s, q⟩ ∈ E := by
  simp only [symbolsBetween, SortedSet.mem_ofList, List.mem_map, List.mem_filter,
    decide_eq_true_eq]
  constructor
  · intro h
    obtain ⟨e, ⟨edge, rfl, rfl⟩, rfl⟩ := h
    exact edge
  · intro edge
    exact ⟨_, ⟨edge, rfl, rfl⟩, rfl⟩

theorem symbolsBetween_eq_empty (apart : ∀ s, ⟨p, s, q⟩ ∉ E) : symbolsBetween E p q = ∅ := by
  apply SortedSet.ext
  intro s
  rw [mem_symbolsBetween]
  exact ⟨fun edge => absurd edge (apart s), fun member => absurd member (SortedSet.not_mem_empty s)⟩

/-- The labels of all pairs that some edge joins. -/
def edgeLabels (E : EdgeSet) (S : SortedSet State) : PairLabels :=
  .ofList S ((bundles E).map fun b => (b.1, Regex.ofSymbols b.2))

theorem label_edgeLabels :
    (edgeLabels E S).label p q = Regex.ofSymbols (symbolsBetween E p q) := by
  let pairs := (E.toList.map fun e => (e.source, e.target)).eraseDups
  have entries : (bundles E).map (fun b => (b.1, Regex.ofSymbols b.2)) =
      pairs.map fun k => (k, Regex.ofSymbols (symbolsBetween E k.1 k.2)) := by
    rw [bundles, List.map_map]
    rfl
  rw [edgeLabels, PairLabels.ofList, PairLabels.label_ofTable, entries, Table.ofList,
    Table.get?_putAll_map]
  by_cases joined : (p, q) ∈ pairs
  · rw [if_pos joined]
    rfl
  · have apart : ∀ s, ⟨p, s, q⟩ ∉ E := by
      intro s edge
      have listed : (p, q) ∈ E.toList.map fun e => (e.source, e.target) :=
        List.mem_map.mpr ⟨_, edge, rfl⟩
      exact joined (List.mem_eraseDups.mpr listed)
    rw [if_neg joined, symbolsBetween_eq_empty apart]
    rfl

/-- The diagram of a generalized automaton between the bridge states of another one. -/
def edgeDiagram (k : NFA) (accept : State) : PairDiagram where
  states := k.states
  alphabet := k.alphabet
  labels := edgeLabels k.edges k.states
  start := k.start
  accept := accept

theorem joined_of_label (label : (edgeLabels k.edges S).label p q ≠ .null) :
    ∃ s, ⟨p, s, q⟩ ∈ k.edges := by
  apply Classical.byContradiction
  intro none
  rw [label_edgeLabels, symbolsBetween_eq_empty fun s edge => none ⟨s, edge⟩] at label
  exact label rfl

theorem closed_edgeDiagram (different : start ≠ accept) (freshStart : start ∉ n.states)
    (freshAccept : accept ∉ n.states)
    (diagram : k.toStateDiagram = NFA.bridgedDiagram n start accept) :
    (edgeDiagram k accept).Closed := by
  have wraps : NFA.Wraps k.toStateDiagram n start accept := diagram ▸ NFA.wraps_bridgedDiagram
  apply PairDiagram.closed_of_labels
  · exact k.start_mem
  · exact (wraps.states accept).mpr (.inr (.inl rfl))
  · exact fun same => different (wraps.start_eq.symm.trans same)
  · rfl
  · intro p q label
    obtain ⟨s, edge⟩ := joined_of_label label
    refine ⟨k.closed.source_mem _ edge, k.closed.target_mem _ edge, ?_, ?_⟩
    · intro entered
      have entered : q = start := entered.trans wraps.start_eq
      rcases (wraps.edges _).mp edge with old | enters | ⟨r, final, leaves⟩
      · exact freshStart (entered ▸ n.closed.target_mem _ old)
      · cases enters
        exact freshStart (entered ▸ n.start_mem)
      · cases leaves
        exact different entered.symm
    · intro left
      have left : p = accept := left
      rcases (wraps.edges _).mp edge with old | enters | ⟨r, final, leaves⟩
      · exact freshAccept (left ▸ n.closed.source_mem _ old)
      · cases enters
        exact different left
      · cases leaves
        exact freshAccept (left ▸ NFA.accepting_subset final)

theorem symbolsBetween_known {s : Symbol} (member : s ∈ symbolsBetween k.edges p q) :
    s = Symbol.epsilon ∨ s ∈ k.alphabet.symbols :=
  k.label_mem _ (mem_symbolsBetween.mp member)

theorem mem_step {w : List Char} (diagram : g.toPairDiagram = edgeDiagram k accept) :
    w ∈ g.step p q ↔ ∃ s, ⟨p, s, q⟩ ∈ k.edges ∧ w = s.spelled := by
  have label : g.step p q = (Regex.ofSymbols (symbolsBetween k.edges p q)).language k.alphabet := by
    rw [step, diagram, edgeDiagram, label_edgeLabels]
  rw [label, Regex.mem_language, Regex.matches_ofSymbols fun s => symbolsBetween_known]
  simp only [mem_symbolsBetween]

theorem language_of_edgeDiagram (accepting : ∀ p, p ∈ k.accepting ↔ p = accept)
    (diagram : g.toPairDiagram = edgeDiagram k accept) : g.language = k.language := by
  have ends : g.accept = accept := by rw [diagram, edgeDiagram]
  have begins : g.start = k.start := by rw [diagram, edgeDiagram]
  rw [language, NFA.language, begins]
  apply le_antisymm
  · apply wordsFrom_le
    · exact NFA.nil_mem_wordsFrom ((accepting _).mpr ends)
    · intro p q w h
      obtain ⟨u, first, v, rest, rfl⟩ := Language.mem_mul.mp h
      obtain ⟨s, edge, rfl⟩ := (mem_step diagram).mp first
      have edge := NFA.append_mem_wordsFrom edge rest
      exact edge
  · apply NFA.wordsFrom_le
    · intro p final
      rw [(accepting p).mp final, ← ends]
      exact nil_mem_wordsFrom
    · intro e edge w h
      have first : e.label.spelled ∈ g.step e.source e.target :=
        (mem_step diagram).mpr ⟨e.label, edge, rfl⟩
      exact step_mul_wordsFrom_le (Language.append_mem_mul first h)

/-- A generalized automaton between two bridge states whose labels say what the edges of a
    nondeterministic one spell. -/
structure Generalizes (g : GNFA) (n : NFA) : Prop where
  alphabet : g.alphabet = n.alphabet
  start_fresh : g.start ∉ n.states
  accept_fresh : g.accept ∉ n.states
  label : ∀ p q, g.labels.label p q =
    Regex.ofSymbols (symbolsBetween (NFA.bridgedDiagram n g.start g.accept).edges p q)
  language : g.language = n.language

/-- A label is made of ε and of labels of the original. -/
theorem Generalizes.labels (generalizes : g.Generalizes n) (p q : State) :
    ∃ symbols, g.labels.label p q = Regex.ofSymbols symbols ∧
      ∀ s ∈ symbols, s = Symbol.epsilon ∨ ∃ e ∈ n.edges, e.label = s := by
  refine ⟨_, generalizes.label p q, fun s member => ?_⟩
  rcases (NFA.wraps_bridgedDiagram.edges _).mp (mem_symbolsBetween.mp member) with
    old | enters | ⟨r, _, leaves⟩
  · exact .inr ⟨_, old, rfl⟩
  · cases enters
    exact .inl rfl
  · cases leaves
    exact .inl rfl

theorem Generalizes.isOver (generalizes : g.Generalizes n) (p q : State) :
    (g.labels.label p q).IsOver n.alphabet := by
  obtain ⟨symbols, label, known⟩ := generalizes.labels p q
  rw [label]
  apply Regex.isOver_ofSymbols
  intro s member
  rcases known s member with waits | ⟨e, edge, rfl⟩
  · exact .inl waits
  · exact n.label_mem e edge

theorem generalizes_of_edgeDiagram (different : start ≠ accept) (freshStart : start ∉ n.states)
    (freshAccept : accept ∉ n.states)
    (bridged : k.toStateDiagram = NFA.bridgedDiagram n start accept)
    (diagram : g.toPairDiagram = edgeDiagram k accept) : g.Generalizes n := by
  have first : g.start = start := by rw [diagram, edgeDiagram, bridged, NFA.bridgedDiagram]
  have last : g.accept = accept := by rw [diagram, edgeDiagram]
  refine ⟨?_, ?_, ?_, fun p q => ?_, ?_⟩
  · rw [diagram, edgeDiagram, bridged, NFA.bridgedDiagram]
  · rwa [first]
  · rwa [last]
  · rw [first, last, ← bridged, diagram]
    exact label_edgeLabels
  · rw [← NFA.language_of_bridgedDiagram freshStart freshAccept different bridged]
    apply language_of_edgeDiagram _ diagram
    intro p
    rw [bridged, NFA.bridgedDiagram]
    exact SortedSet.mem_singleton

/-- Between two fresh bridge states the labels of all edges pass the checks. -/
theorem ofDiagram_bridged (different : start ≠ accept) (freshStart : start ∉ n.states)
    (freshAccept : accept ∉ n.states)
    (bridged : k.toStateDiagram = NFA.bridgedDiagram n start accept) :
    ∃ g, ofDiagram {
      states := k.states
      alphabet := k.alphabet
      labels := .ofList k.states ((bundles k.edges).map fun b => (b.1, Regex.ofSymbols b.2))
      start := k.start
      accept := k.accepting.toList.head?.getD k.start } = .ok g ∧
        g.toPairDiagram = edgeDiagram k accept := by
  have same : k.accepting.toList.head?.getD k.start = accept := by
    rw [bridged, NFA.bridgedDiagram]
    rfl
  rw [same]
  exact ⟨_, ofDiagram_ok (closed_edgeDiagram different freshStart freshAccept bridged), rfl⟩

/-- The generalized automaton of a nondeterministic one has its language. It fails to exist only if
    a bridge state is drawn that the automaton has. -/
theorem ofNFA_ensures {F : Error → Prop} (taken : ∀ p q, a.Offers p → a.Offers q →
      p ∈ n.states ∨ q ∈ n.states → F (.bridgeTaken p q n.summary)) :
    (ofNFA n).Ensures a (fun g _ => g.Generalizes n) F := by
  unfold ofNFA
  refine (NFA.withSingleAccept_ensures taken).bind fun k c _ h => ?_
  obtain ⟨start, accept, different, freshStart, freshAccept, bridged⟩ := h
  obtain ⟨g, built, diagram⟩ := ofDiagram_bridged different freshStart freshAccept bridged
  rw [built]
  exact .check_ok (generalizes_of_edgeDiagram different freshStart freshAccept bridged diagram)

/-- The names for bridge states never clash and never run out. -/
theorem ofNFA_generalizes (n : NFA) :
    ∃ g c, (ofNFA n).runFrom (bridgeAllocator n) = (.ok g, c) ∧ g.Generalizes n := by
  have bridge : (ofNFA n).Ensures (bridgeAllocator n) (fun g _ => g.Generalizes n) fun _ => False :=
    ofNFA_ensures fun _ _ first second taken => taken.elim first.1 second.1
  exact bridge.ok_of_endless rfl

end GNFA

end Automata
