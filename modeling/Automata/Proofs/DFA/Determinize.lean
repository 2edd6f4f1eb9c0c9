import Automata.DFA.Determinize
import Automata.Proofs.DFA.Naming
import Automata.Proofs.NFA.Simplify
import Mathlib.Data.List.Sublists

/-! # The language of the subset construction

As long as different sets of states have different names, the deterministic automaton keeps the set
that a run of the nondeterministic one would keep. Names without commas tell all sets apart.
-/

namespace Automata

/-! ### Names of sets -/

private theorem intercalate_comma (x : List Char) (xs : List (List Char)) :
    [',', ' '].intercalate (x :: xs) = [','].intercalate (x :: xs.map (' ' :: ·)) := by
  induction xs generalizing x with
  | nil => rfl
  | cons y ys ih =>
      rw [List.intercalate_cons_cons, ih, List.map_cons, List.intercalate_cons_cons]
      cases ys with
      | nil => simp
      | cons z zs => simp [List.intercalate_cons_cons]

/-- Texts that are not empty and hold no commas can be told from what joins them. -/
private theorem eq_of_intercalate {xs ys : List (List Char)}
    (hx : ∀ x ∈ xs, x ≠ [] ∧ ',' ∉ x) (hy : ∀ y ∈ ys, y ≠ [] ∧ ',' ∉ y)
    (same : [',', ' '].intercalate xs = [',', ' '].intercalate ys) : xs = ys := by
  have proper {z : List Char} {zs : List (List Char)} (some : z ≠ []) :
      [',', ' '].intercalate (z :: zs) ≠ [] := by
    cases zs <;> simp [List.intercalate_cons_cons, some]
  cases xs with
  | nil =>
      cases ys with
      | nil => rfl
      | cons y ys => exact absurd same.symm (proper (hy y List.mem_cons_self).1)
  | cons x xs =>
      cases ys with
      | nil => exact absurd same (proper (hx x List.mem_cons_self).1)
      | cons y ys =>
          have free {z : List Char} {zs : List (List Char)}
              (h : ∀ x ∈ z :: zs, x ≠ [] ∧ ',' ∉ x) :
              ∀ l ∈ z :: zs.map (' ' :: ·), ',' ∉ l := by
            intro l member
            rcases List.mem_cons.mp member with rfl | later
            · exact (h l List.mem_cons_self).2
            · obtain ⟨t, listed, rfl⟩ := List.mem_map.mp later
              simpa using (h t (List.mem_cons_of_mem _ listed)).2
          rw [intercalate_comma, intercalate_comma] at same
          have split := congrArg (List.splitOn ',') same
          rw [List.splitOn_intercalate ',' (free hx) (by simp),
            List.splitOn_intercalate ',' (free hy) (by simp)] at split
          obtain ⟨rfl, rest⟩ := List.cons.inj split
          have injective : Function.Injective (fun l : List Char => ' ' :: l) :=
            fun _ _ h => (List.cons.inj h).2
          rw [List.map_injective_iff.mpr injective rest]

namespace NFA

variable {n : NFA} {S T : SortedSet State} {c : Char}

/-- No two sets of states have the same name. -/
def Separate (n : NFA) : Prop :=
  ∀ S T : SortedSet State, S ⊆ n.states → T ⊆ n.states → subsetState S = subsetState T → S = T

/-! ### The sets that runs reach -/

theorem advance_subset : n.advance S c ⊆ n.states := by
  intro q member
  obtain ⟨p, moved, path⟩ := mem_epsilonClosure.mp member
  obtain ⟨r, _, edge⟩ := mem_move.mp moved
  exact path.mem_states (n.closed.target_mem _ edge)

theorem startSet_subset : n.startSet ⊆ n.states := by
  intro q member
  obtain ⟨p, single, path⟩ := mem_epsilonClosure.mp member
  rw [SortedSet.mem_singleton.mp single] at path
  exact path.mem_states n.closed.start_mem

theorem subset_of_reaches (reaches : Worklist.Reaches n.nextSubsets n.startSet S) :
    S ⊆ n.states := by
  cases reaches with
  | refl => exact startSet_subset
  | tail _ step =>
      obtain ⟨c, _, rfl⟩ := List.mem_map.mp step
      exact advance_subset

theorem mem_subsets : S ∈ n.subsets ↔ Worklist.Reaches n.nextSubsets n.startSet S := by
  let all : List (SortedSet State) := n.states.toList.sublists.map .ofList
  have enough : all.length ≤ Nat.pow 2 n.states.size := by
    simp [all, SortedSet.size, List.length_sublists]
  have found : S ∈ n.subsets ↔
      ∃ T ∈ [n.startSet], Worklist.Reaches n.nextSubsets T S := by
    refine Worklist.mem_discover (fun T root U reaches => ?_) enough
    rw [List.mem_singleton.mp root] at reaches
    have inside := subset_of_reaches reaches
    refine List.mem_map.mpr ⟨n.states.toList.filter fun p => decide (p ∈ U),
      List.mem_sublists.mpr List.filter_sublist, SortedSet.ext fun p => ?_⟩
    simpa using inside p
  simpa using found

theorem startSet_mem_subsets : n.startSet ∈ n.subsets := mem_subsets.mpr .refl

theorem advance_mem_subsets (member : S ∈ n.subsets) (letter : c ∈ n.alphabet) :
    n.advance S c ∈ n.subsets :=
  mem_subsets.mpr (.tail (mem_subsets.mp member) (List.mem_map.mpr ⟨c, letter, rfl⟩))

theorem subset_of_mem_subsets (member : S ∈ n.subsets) : S ⊆ n.states :=
  subset_of_reaches (mem_subsets.mp member)

theorem Separate.injective (separate : n.Separate) (hS : S ∈ n.subsets) (hT : T ∈ n.subsets)
    (same : subsetState S = subsetState T) : S = T :=
  separate S T (subset_of_mem_subsets hS) (subset_of_mem_subsets hT) same

/-- Names without commas separate all sets of states. -/
theorem separate_of_names (names : ∀ p ∈ n.states, p.name ≠ "" ∧ ',' ∉ p.name.toList) :
    n.Separate := by
  intro S T hS hT same
  have proper {U : SortedSet State} (inside : U ⊆ n.states) :
      ∀ x ∈ (Sorting.sort (U.toList.map State.name)).map String.toList, x ≠ [] ∧ ',' ∉ x := by
    intro x member
    obtain ⟨name, listed, rfl⟩ := List.mem_map.mp member
    obtain ⟨p, state, rfl⟩ := List.mem_map.mp (Sorting.mem_sort.mp listed)
    exact ⟨fun empty => (names p (inside p state)).1 (String.toList_eq_nil_iff.mp empty),
      (names p (inside p state)).2⟩
  have texts := congrArg (fun p : State => p.name.toList) same
  simp only [subsetState, subsetName, Text.braced, String.toList_append,
    String.toList_intercalate] at texts
  have joined := eq_of_intercalate (proper hS) (proper hT)
    (List.append_cancel_left (List.append_cancel_right texts))
  have sorted := List.map_injective_iff.mpr (fun _ _ => String.toList_inj.mp) joined
  apply SortedSet.ext
  intro p
  have listed {U : SortedSet State} :
      p ∈ U ↔ p.name ∈ Sorting.sort (U.toList.map State.name) := by
    rw [Sorting.mem_sort, List.mem_map]
    constructor
    · intro member
      exact ⟨p, member, rfl⟩
    · intro ⟨q, member, same⟩
      cases p
      cases q
      cases same
      exact member
  rw [listed, listed, sorted]

/-! ### The construction -/

/-- The diagram of the deterministic automaton. -/
def subsetDiagram (n : NFA) : MoveDiagram where
  states := .ofList (n.subsets.map subsetState)
  alphabet := n.alphabet
  moves := .ofList (n.subsets.flatMap n.subsetMoves)
  start := subsetState n.startSet
  accepting := .ofList ((n.subsets.filter n.isAccepting).map subsetState)

theorem determinize_eq (n : NFA) : n.determinize = DFA.ofDiagram n.subsetDiagram := rfl

theorem mem_subsetMoves {x : State × Symbol} {q : State} :
    (x, q) ∈ n.subsetMoves S ↔
      ∃ c ∈ n.alphabet, x = (subsetState S, Symbol.ofChar c) ∧ q = subsetState (n.advance S c) := by
  rw [subsetMoves, List.mem_map]
  refine exists_congr fun c => and_congr Iff.rfl ?_
  rw [Prod.mk.injEq, eq_comm, @eq_comm _ q]

/-- The sets that runs reach, with their names. -/
def subsetNaming (n : NFA) : Naming (SortedSet State) where
  elements := n.subsets
  name := subsetState
  alphabet := n.alphabet
  step := n.advance
  start := n.startSet
  final := n.isAccepting

theorem Separate.sound (separate : n.Separate) : n.subsetNaming.Sound where
  start_mem := startSet_mem_subsets
  step_mem _ member _ letter := advance_mem_subsets member letter
  step_eq _ hS _ hT same c _ := congrArg (fun S => subsetState (n.advance S c))
    (separate.injective hS hT same)
  final_eq _ hS _ hT same := congrArg n.isAccepting (separate.injective hS hT same)

theorem describes_subsets : n.subsetNaming.Describes n.subsetDiagram where
  states p := by
    rw [subsetDiagram, SortedSet.mem_ofList, List.mem_map]
    exact exists_congr fun S => and_congr Iff.rfl eq_comm
  alphabet := rfl
  moves := by
    refine ⟨_, rfl, fun p a q => ?_⟩
    rw [List.mem_flatMap]
    refine exists_congr fun S => and_congr Iff.rfl ?_
    simp only [mem_subsetMoves, Prod.mk.injEq, and_assoc]
    rfl
  start := rfl
  accepting p := by
    simp only [subsetDiagram, SortedSet.mem_ofList, List.mem_map, List.mem_filter, and_assoc]
    exact exists_congr fun S => and_congr Iff.rfl (and_congr Iff.rfl eq_comm)

/-- The subset construction accepts what the automaton accepts. -/
theorem determinize_accepts (separate : n.Separate) :
    ∃ d, n.determinize = .ok d ∧ d.alphabet = n.alphabet ∧
      ∀ word, d.accepts word = n.accepts word := by
  obtain ⟨d, built, diagram⟩ := n.describes_subsets.ofDiagram_ok separate.sound
  have alphabet : d.alphabet = n.alphabet := by rw [diagram]; rfl
  refine ⟨d, built, alphabet, DFA.accepts_eq_of_recognizes alphabet fun w covered => ?_⟩
  have start : d.start = subsetState n.startSet := by rw [diagram]; rfl
  rw [DFA.recognizes, start]
  exact n.describes_subsets.recognizesFrom_name separate.sound diagram covered
    startSet_mem_subsets

end NFA

end Automata
