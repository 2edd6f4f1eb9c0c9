import Automata.NFA.Combine
import Automata.Proofs.NFA.Basic
import Mathlib.Data.List.Pairwise

/-! # Languages of combined automata

Automata over one alphabet that are apart can be combined: their concatenation has the product of
their languages, their union the sum, and a star the star. Each time the words accepted from a
state of an operand are followed through the combined automaton.
-/

open scoped Computability

namespace Automata.NFA

variable {A : Alphabet} {l : List NFA} {m n first : NFA} {others : List NFA} {p q start : State}
  {w : List Char}

/-! ### Operands -/

theorem checkAlphabets_ok {l : List StateDiagram} (alphabets : ∀ d ∈ l, d.alphabet = A) :
    StateDiagram.checkAlphabets l = .ok () := by
  induction l using StateDiagram.checkAlphabets.induct with
  | case1 d e l same ih =>
      rw [StateDiagram.checkAlphabets, if_pos same]
      exact ih fun d later => alphabets d (List.mem_cons_of_mem _ later)
  | case2 d e l differ =>
      exact absurd ((alphabets d (by simp)).trans (alphabets e (by simp)).symm) differ
  | case3 l short => rw [StateDiagram.checkAlphabets.eq_2 l short]

theorem checkDisjoint_ok {seen : SortedSet State} {l : List StateDiagram}
    (unseen : ∀ d ∈ l, ∀ p ∈ seen, p ∉ d.states)
    (apart : l.Pairwise fun d e => ∀ p ∈ d.states, p ∉ e.states) :
    StateDiagram.checkDisjoint seen l = .ok () := by
  induction l generalizing seen with
  | nil => rfl
  | cons d l ih =>
      obtain ⟨others, apart⟩ := List.pairwise_cons.mp apart
      have fresh : ¬ seen.meets d.states = true := by
        rw [SortedSet.meets_iff]
        rintro ⟨p, old, new⟩
        exact unseen d (by simp) p old new
      rw [StateDiagram.checkDisjoint, if_neg fresh]
      refine ih (fun e later p known => ?_) apart
      rcases SortedSet.mem_union.mp known with old | new
      · exact unseen e (List.mem_cons_of_mem d later) p old
      · exact others e later p new

/-- Diagrams over one alphabet, no two of which share a state, pass the check. -/
theorem check_diagrams_ok {l : List StateDiagram} (alphabets : ∀ d ∈ l, d.alphabet = A)
    (apart : l.Pairwise fun d e => ∀ p ∈ d.states, p ∉ e.states) :
    StateDiagram.checkCompatible l = .ok () := by
  rw [StateDiagram.checkCompatible, checkAlphabets_ok alphabets]
  exact checkDisjoint_ok (fun _ _ p old => absurd old (SortedSet.not_mem_empty p)) apart

theorem checkCompatible_ok (alphabets : ∀ n ∈ l, n.alphabet = A) (apart : l.Pairwise Apart) :
    checkCompatible l = .ok () :=
  check_diagrams_ok (List.forall_mem_map.mpr alphabets) (List.pairwise_map.mpr apart)

theorem alphabets_of_check {d : StateDiagram} {l : List StateDiagram}
    (checked : StateDiagram.checkAlphabets (d :: l) = .ok ()) :
    ∀ e ∈ d :: l, e.alphabet = d.alphabet := by
  induction l generalizing d with
  | nil => simp
  | cons e l ih =>
      rw [StateDiagram.checkAlphabets] at checked
      split at checked
      · rename_i same
        rw [same]
        exact List.forall_mem_cons.mpr ⟨same, ih checked⟩
      · cases checked

theorem disjoint_of_check {seen : SortedSet State} {l : List StateDiagram}
    (checked : StateDiagram.checkDisjoint seen l = .ok ()) :
    (∀ d ∈ l, ∀ p ∈ seen, p ∉ d.states) ∧
      l.Pairwise fun d e => ∀ p ∈ d.states, p ∉ e.states := by
  induction l generalizing seen with
  | nil => simp
  | cons d l ih =>
      rw [StateDiagram.checkDisjoint] at checked
      split at checked
      · cases checked
      · rename_i fresh
        obtain ⟨unseen, apart⟩ := ih checked
        have unseen (e : StateDiagram) (later : e ∈ l) (p : State)
            (known : p ∈ seen ∨ p ∈ d.states) : p ∉ e.states :=
          unseen e later p (SortedSet.mem_union.mpr known)
        refine ⟨List.forall_mem_cons.mpr ⟨fun p old new => ?_, fun e later p old => ?_⟩,
          List.pairwise_cons.mpr ⟨fun e later p here => ?_, apart⟩⟩
        · exact fresh (SortedSet.meets_iff.mpr ⟨p, old, new⟩)
        · exact unseen e later p (.inl old)
        · exact unseen e later p (.inr here)

theorem parts_of_check {l : List StateDiagram} (checked : StateDiagram.checkCompatible l = .ok ()) :
    StateDiagram.checkAlphabets l = .ok () ∧ StateDiagram.checkDisjoint ∅ l = .ok () := by
  rw [StateDiagram.checkCompatible] at checked
  cases alphabets : StateDiagram.checkAlphabets l with
  | error e =>
      rw [alphabets] at checked
      cases checked
  | ok _ =>
      rw [alphabets] at checked
      exact ⟨rfl, checked⟩

/-- Operands that pass the check are over one alphabet, and no two of them share a state. -/
theorem compatible_of_check (checked : checkCompatible (first :: others) = .ok ()) :
    (∀ n ∈ first :: others, n.alphabet = first.alphabet) ∧ (first :: others).Pairwise Apart := by
  obtain ⟨alphabets, disjoint⟩ := parts_of_check checked
  have apart := (disjoint_of_check disjoint).2
  rw [List.pairwise_map] at apart
  refine ⟨fun n member => ?_, apart⟩
  exact alphabets_of_check alphabets _ (List.mem_map_of_mem (f := toStateDiagram) member)

theorem kind_of_alphabets_error {l : List StateDiagram} {e : Error}
    (failure : StateDiagram.checkAlphabets l = .error e) : e.kind = .mismatch := by
  induction l using StateDiagram.checkAlphabets.induct with
  | case1 d e l same ih =>
      rw [StateDiagram.checkAlphabets, if_pos same] at failure
      exact ih failure
  | case2 d e l differ =>
      rw [StateDiagram.checkAlphabets, if_neg differ] at failure
      cases failure
      rfl
  | case3 l short =>
      rw [StateDiagram.checkAlphabets.eq_2 l short] at failure
      cases failure

theorem kind_of_disjoint_error {seen : SortedSet State} {l : List StateDiagram} {e : Error}
    (failure : StateDiagram.checkDisjoint seen l = .error e) : e.kind = .state := by
  induction l generalizing seen with
  | nil => cases failure
  | cons d l ih =>
      rw [StateDiagram.checkDisjoint] at failure
      split at failure
      · cases failure
        rfl
      · exact ih failure

/-- Operands that do not pass the check differ in their alphabets or share a state. -/
theorem kind_of_check_error {l : List StateDiagram} {e : Error}
    (failure : StateDiagram.checkCompatible l = .error e) :
    e.kind = .mismatch ∨ e.kind = .state := by
  rw [StateDiagram.checkCompatible] at failure
  cases alphabets : StateDiagram.checkAlphabets l with
  | error e' =>
      rw [alphabets] at failure
      cases failure
      exact .inl (kind_of_alphabets_error alphabets)
  | ok _ =>
      rw [alphabets] at failure
      exact .inr (kind_of_disjoint_error failure)

theorem mem_allStates : p ∈ allStates l ↔ ∃ n ∈ l, p ∈ n.states := by
  simp [allStates]

theorem mem_allEdges {e : Edge} : e ∈ allEdges l ↔ ∃ n ∈ l, e ∈ n.edges := by
  simp [allEdges]

theorem mem_bridges {S : SortedSet State} {e : Edge} :
    e ∈ bridges S q ↔ ∃ p ∈ S, e = ⟨p, Symbol.epsilon, q⟩ := by
  simp [bridges, eq_comm]

theorem eq_of_mem_states (apart : l.Pairwise Apart) (hm : m ∈ l) (hn : n ∈ l)
    (left : p ∈ m.states) (right : p ∈ n.states) : m = n :=
  Classical.byContradiction fun different =>
    apart.forall hm hn different p left right

/-- The edges of automata over one alphabet fit into a diagram over it. -/
theorem label_of_mem_allEdges (alphabets : ∀ n ∈ l, n.alphabet = A) {e : Edge}
    (member : e ∈ allEdges l) : e.label = Symbol.epsilon ∨ e.label ∈ A.symbols := by
  obtain ⟨n, inside, edge⟩ := mem_allEdges.mp member
  exact alphabets n inside ▸ n.label_mem e edge

/-! ### Concatenation -/

theorem mem_links {e : Edge} (member : e ∈ links l) :
    ∃ m ∈ l, ∃ n ∈ l, e.source ∈ m.accepting ∧ e.label = Symbol.epsilon ∧ e.target = n.start := by
  induction l with
  | nil => cases member
  | cons m l ih =>
      cases l with
      | nil => cases member
      | cons n l =>
          rcases List.mem_append.mp member with bridge | later
          · obtain ⟨p, final, rfl⟩ := mem_bridges.mp bridge
            exact ⟨m, by simp, n, by simp, final, rfl, rfl⟩
          · obtain ⟨m', hm, n', hn, h⟩ := ih later
            exact ⟨m', List.mem_cons_of_mem m hm, n', List.mem_cons_of_mem m hn, h⟩

/-- The words that lead from a state of some automaton of a list through all the later ones. -/
def wordsThrough : List NFA → State → Language Char
  | [], _ => 0
  | m :: l, p => if p ∈ m.states then m.wordsFrom p * (l.map language).prod else wordsThrough l p

theorem wordsThrough_start : wordsThrough (m :: l) m.start = ((m :: l).map language).prod := by
  rw [wordsThrough, if_pos m.start_mem]
  rfl

theorem not_mem_of_mem_allStates (apart : (m :: l).Pairwise Apart) (member : p ∈ allStates l) :
    p ∉ m.states := by
  obtain ⟨n, inside, later⟩ := mem_allStates.mp member
  exact fun now => (List.pairwise_cons.mp apart).1 n inside p now later

theorem wordsThrough_of_mem_allStates (apart : (m :: l).Pairwise Apart)
    (member : p ∈ allStates l) : wordsThrough (m :: l) p = wordsThrough l p :=
  if_neg (not_mem_of_mem_allStates apart member)

theorem last_mem : others.getLast?.getD first ∈ first :: others := by
  cases others with
  | nil => simp
  | cons n l =>
      rw [List.getLast?_eq_some_getLast (List.cons_ne_nil n l)]
      exact List.mem_cons_of_mem first (List.getLast_mem _)

theorem nil_mem_wordsThrough (apart : (first :: others).Pairwise Apart)
    (final : p ∈ (others.getLast?.getD first).accepting) :
    [] ∈ wordsThrough (first :: others) p := by
  induction others generalizing first with
  | nil =>
      rw [wordsThrough, if_pos (first.accepting_subset final)]
      exact Language.mem_mul.mpr ⟨[], nil_mem_wordsFrom final, [], rfl, rfl⟩
  | cons n l ih =>
      rw [List.getLast?_cons] at final
      have later : p ∈ allStates (n :: l) := mem_allStates.mpr ⟨_, last_mem, accepting_subset final⟩
      rw [wordsThrough_of_mem_allStates apart later]
      exact ih (List.pairwise_cons.mp apart).2 final

theorem append_mem_wordsThrough (apart : l.Pairwise Apart) {e : Edge}
    (member : e ∈ allEdges l ++ links l) (h : w ∈ wordsThrough l e.target) :
    e.label.spelled ++ w ∈ wordsThrough l e.source := by
  induction l with
  | nil => cases member
  | cons m l ih =>
      have step : e ∈ m.edges ∨ e ∈ allEdges l ++ links l ∨
          ∃ n ∈ l.head?, e ∈ bridges m.accepting n.start := by
        cases l with
        | nil => simpa [allEdges, links] using member
        | cons n l =>
            simp only [allEdges, links, List.flatMap_cons, List.mem_append] at member ⊢
            simp only [List.head?_cons, Option.mem_some_iff, exists_eq_left']
            tauto
      rcases step with inside | later | ⟨n, next, bridge⟩
      · rw [wordsThrough, if_pos (m.closed.target_mem e inside)] at h
        obtain ⟨u, first, v, others, rfl⟩ := Language.mem_mul.mp h
        rw [wordsThrough, if_pos (m.closed.source_mem e inside), ← List.append_assoc]
        exact Language.append_mem_mul (append_mem_wordsFrom inside first) others
      · have ends : e.source ∈ allStates l ∧ e.target ∈ allStates l := by
          rcases List.mem_append.mp later with edge | link
          · obtain ⟨n, inside, edge⟩ := mem_allEdges.mp edge
            exact ⟨mem_allStates.mpr ⟨n, inside, n.closed.source_mem e edge⟩,
              mem_allStates.mpr ⟨n, inside, n.closed.target_mem e edge⟩⟩
          · obtain ⟨m', hm, n', hn, final, _, target⟩ := mem_links link
            exact ⟨mem_allStates.mpr ⟨m', hm, accepting_subset final⟩,
              mem_allStates.mpr ⟨n', hn, target ▸ n'.start_mem⟩⟩
        rw [wordsThrough_of_mem_allStates apart ends.2] at h
        rw [wordsThrough_of_mem_allStates apart ends.1]
        exact ih (List.pairwise_cons.mp apart).2 later h
      · cases l with
        | nil => cases next
        | cons k l =>
            cases next
            obtain ⟨p, final, rfl⟩ := mem_bridges.mp bridge
            have later : n.start ∈ allStates (n :: l) :=
              mem_allStates.mpr ⟨n, by simp, n.start_mem⟩
            rw [wordsThrough_of_mem_allStates apart later, wordsThrough_start] at h
            rw [wordsThrough, if_pos (accepting_subset final)]
            exact Language.append_mem_mul (nil_mem_wordsFrom final) h

/-- What the automata of a list accept one after the other, an automaton accepts that has all their
    edges and links. -/
theorem prod_le_wordsFrom (edges : ∀ e ∈ allEdges (first :: others) ++ links (first :: others),
      e ∈ n.edges)
    (accepting : ∀ q ∈ (others.getLast?.getD first).accepting, q ∈ n.accepting) :
    ((first :: others).map language).prod ≤ n.wordsFrom first.start := by
  induction others generalizing first with
  | nil =>
      simp only [List.map_cons, List.map_nil, List.prod_cons, List.prod_nil, mul_one]
      exact wordsFrom_mono (fun e edge => edges e (by simpa [allEdges, links] using edge))
        accepting _
  | cons k l ih =>
      rw [List.getLast?_cons] at accepting
      have later : ((k :: l).map language).prod ≤ n.wordsFrom k.start := by
        refine ih (fun e member => edges e ?_) accepting
        simp only [allEdges, links, List.flatMap_cons, List.mem_append] at member ⊢
        tauto
      intro w h
      rw [List.map_cons, List.prod_cons] at h
      obtain ⟨u, front, v, back, rfl⟩ := Language.mem_mul.mp h
      refine wordsFrom_extend (fun e edge => edges e ?_) (fun q final => ?_) front
      · exact List.mem_append_left _ (mem_allEdges.mpr ⟨first, by simp, edge⟩)
      · have bridge := edges ⟨q, Symbol.epsilon, k.start⟩ (by simp [links, mem_bridges, final])
        exact wordsFrom_epsilon bridge (later back)

/-- Automata over one alphabet that are apart can be concatenated. -/
theorem concatenate_spec (alphabets : ∀ n ∈ first :: others, n.alphabet = A)
    (apart : (first :: others).Pairwise Apart) :
    ∃ n, concatenate (first :: others) = .ok n ∧ n.alphabet = A ∧
      n.states = allStates (first :: others) ∧
      n.language = ((first :: others).map language).prod := by
  let d : StateDiagram := {
    states := allStates (first :: others)
    alphabet := first.alphabet
    edges := .ofList (allEdges (first :: others) ++ links (first :: others))
    start := first.start
    accepting := (others.getLast?.getD first).accepting }
  have edges : ∀ e, e ∈ d.edges ↔ e ∈ allEdges (first :: others) ++ links (first :: others) :=
    fun e => SortedSet.mem_ofList
  have same : first.alphabet = A := alphabets first (by simp)
  have ends : ∀ e ∈ d.edges, e.source ∈ d.states ∧ e.target ∈ d.states ∧
      (e.label = Symbol.epsilon ∨ e.label ∈ A.symbols) := by
    intro e member
    rcases List.mem_append.mp ((edges e).mp member) with edge | link
    · obtain ⟨n, inside, inner⟩ := mem_allEdges.mp edge
      exact ⟨mem_allStates.mpr ⟨n, inside, n.closed.source_mem e inner⟩,
        mem_allStates.mpr ⟨n, inside, n.closed.target_mem e inner⟩,
        label_of_mem_allEdges alphabets edge⟩
    · obtain ⟨m, hm, n, hn, final, reads, target⟩ := mem_links link
      exact ⟨mem_allStates.mpr ⟨m, hm, accepting_subset final⟩,
        mem_allStates.mpr ⟨n, hn, target ▸ n.start_mem⟩, .inl reads⟩
  have closed : d.Closed := {
    start_mem := mem_allStates.mpr ⟨first, by simp, first.start_mem⟩
    accepting_mem := fun p final => mem_allStates.mpr ⟨_, last_mem, accepting_subset final⟩
    source_mem := fun e member => (ends e member).1
    target_mem := fun e member => (ends e member).2.1 }
  have labels : WellLabelled d := fun e member => same ▸ (ends e member).2.2
  refine ⟨⟨d, closed, labels⟩, ?_, same, rfl, le_antisymm ?_ ?_⟩
  · rw [concatenate, checkCompatible_ok alphabets apart]
    exact ofDiagram_ok closed labels
  · rw [← wordsThrough_start]
    refine wordsFrom_le (fun p final => ?_) (fun e member w h => ?_) _
    · exact nil_mem_wordsThrough apart final
    · exact append_mem_wordsThrough apart ((edges e).mp member) h
  · exact prod_le_wordsFrom (fun e member => (edges e).mpr member) fun _ final => final

end Automata.NFA
