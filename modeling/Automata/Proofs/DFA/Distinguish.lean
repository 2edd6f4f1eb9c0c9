import Automata.DFA.Distinguish
import Automata.DFA.Equivalence
import Automata.Proofs.DFA.Language
import Automata.Proofs.Worklist

/-! # States that no word tells apart

Marking begins with the pairs of which one state is accepting, and it ends when no other pair leads
to a marked one. By then a pair is marked exactly if some word tells its states apart.
-/

namespace Automata

/-- A list in ascending order is sorted already. -/
theorem SortedSet.sort_toList (S : SortedSet State) : Sorting.sort S.toList = S.toList := by
  obtain ⟨l, sorted⟩ := S
  simp only [Sorting.sort, Sorting.sortBy]
  induction l with
  | nil => rfl
  | cons p l ih =>
      obtain ⟨first, sorted⟩ := List.pairwise_cons.mp sorted
      rw [List.foldr_cons, ih sorted]
      cases l with
      | nil => rfl
      | cons q l =>
          rw [Sorting.place, if_neg]
          rw [first q List.mem_cons_self]
          simp

/-- Sorting the members of a set in any order lists the set. -/
theorem SortedSet.sort_eq_toList {S : SortedSet State} {l : List State} (nodup : l.Nodup)
    (members : ∀ p, p ∈ l ↔ p ∈ S) : Sorting.sort l = S.toList := by
  refine eq_of_pairwise_of_mem_iff ?_ S.sorted fun p => by simpa using members p
  have different : (Sorting.sort l).Nodup := (Sorting.perm_sortBy l).nodup_iff.mpr nodup
  refine ((Sorting.pairwise_sortBy l).and different).imp fun {p q} both => ?_
  cases order : compare p q with
  | lt => rfl
  | eq => exact absurd (Std.compare_eq_iff_eq.mp order) both.2
  | gt => simp [order] at both

namespace DFA

variable {d : DFA} {p q r p' q' : State} {c : Char} {w : List Char} {k : State × State}
  {all marked pairs : List (State × State)} {S : SortedSet State} {bound : Nat}

theorem equivalence (d : DFA) : Equivalence d.Equivalent :=
  ⟨Equivalent.refl d, Equivalent.symm, Equivalent.trans⟩

theorem differ_eq_false :
    d.differ p q = false ↔ d.recognizesFrom p [] = d.recognizesFrom q [] := by
  rw [differ, recognizesFrom_nil, recognizesFrom_nil]
  simp

theorem Equivalent.accepting (same : d.Equivalent p q) : p ∈ d.accepting ↔ q ∈ d.accepting := by
  have ends := same [] (by simp)
  rw [recognizesFrom_nil, recognizesFrom_nil] at ends
  exact decide_eq_decide.mp ends

/-! ### Marking -/

theorem mem_nextPairs : (p', q') ∈ d.nextPairs (p, q) ↔
    ∃ c ∈ d.alphabet, d.next p c = some p' ∧ d.next q c = some q' := by
  simp only [nextPairs, List.mem_filterMap]
  refine exists_congr fun c => and_congr Iff.rfl ?_
  cases d.next p c <;> cases d.next q c <;> simp

theorem ordered_cases (p q : State) : ordered p q = (p, q) ∨ ordered p q = (q, p) := by
  unfold ordered
  split
  · exact .inr rfl
  · exact .inl rfl

theorem ordered_comm (p q : State) : ordered p q = ordered q p := by
  unfold ordered
  cases order : compare p q with
  | lt => rw [if_neg (by simp), if_pos (Std.OrientedCmp.gt_iff_lt.mpr order)]
  | eq => rw [Std.compare_eq_iff_eq.mp order, if_neg (by simp)]; simp
  | gt =>
      rw [if_pos rfl, if_neg]
      rw [Std.OrientedCmp.gt_iff_lt.mp order]
      simp

theorem leadsTo_iff : d.leadsTo marked k = true ↔
    ∃ s ∈ d.nextPairs k, s.1 ≠ s.2 ∧ ordered s.1 s.2 ∈ marked := by
  simp [leadsTo, List.any_eq_true]

/-- What leads to pairs that can be told apart can be told apart. -/
theorem apart_of_leadsTo (apart : ∀ k ∈ marked, ¬d.Equivalent k.1 k.2)
    (leads : d.leadsTo marked k = true) : ¬d.Equivalent k.1 k.2 := by
  intro same
  obtain ⟨s, pair, _, known⟩ := leadsTo_iff.mp leads
  obtain ⟨c, letter, first, second⟩ := mem_nextPairs.mp pair
  have next := same.next letter first second
  apply apart _ known
  rcases ordered_cases s.1 s.2 with order | order
  · rw [order]
    exact next
  · rw [order]
    exact next.symm

/-- What marking keeps: each marked pair is one of all pairs, marked once, and told apart. -/
structure Marking (d : DFA) (all marked : List (State × State)) : Prop where
  nodup : marked.Nodup
  inside : marked ⊆ all
  apart : ∀ k ∈ marked, ¬d.Equivalent k.1 k.2

theorem Marking.mark (marking : d.Marking all marked) (member : k ∈ all) (new : k ∉ marked)
    (leads : d.leadsTo marked k = true) : d.Marking all (k :: marked) where
  nodup := List.nodup_cons.mpr ⟨new, marking.nodup⟩
  inside := List.cons_subset.mpr ⟨member, marking.inside⟩
  apart := List.forall_mem_cons.mpr ⟨apart_of_leadsTo marking.apart leads, marking.apart⟩

/-- A walk either marks more pairs, or none of its pairs leads to a marked one. -/
theorem Marking.sweep (marking : d.Marking all marked) (some : pairs ⊆ all) :
    d.Marking all (d.sweep marked pairs) ∧ marked ⊆ d.sweep marked pairs ∧
      (marked.length < (d.sweep marked pairs).length ∨
        d.sweep marked pairs = marked ∧ ∀ k ∈ pairs, k ∉ marked → d.leadsTo marked k = false) := by
  induction pairs generalizing marked with
  | nil => exact ⟨marking, fun _ member => member, .inr ⟨rfl, by simp⟩⟩
  | cons k pairs ih =>
      obtain ⟨here, later⟩ := List.cons_subset.mp some
      rw [DFA.sweep]
      split
      · rename_i mark
        obtain ⟨kept, more, grown⟩ := ih (marking.mark here mark.1 mark.2) later
        refine ⟨kept, fun _ old => more (List.mem_cons_of_mem k old), .inl ?_⟩
        have marks : (k :: marked).Nodup := List.nodup_cons.mpr ⟨mark.1, marking.nodup⟩
        exact Nat.lt_of_succ_le (List.subperm_of_subset marks more).length_le
      · rename_i skip
        obtain ⟨kept, more, grown⟩ := ih marking later
        refine ⟨kept, more, grown.imp_right fun ⟨same, others⟩ => ⟨same, ?_⟩⟩
        refine List.forall_mem_cons.mpr ⟨fun new => ?_, others⟩
        simpa [new] using skip

/-- After enough walks no pair that is left leads to a marked one. -/
theorem Marking.sweepAll (marking : d.Marking all marked)
    (enough : all.length ≤ marked.length + bound) :
    d.Marking all (d.sweepAll bound marked all) ∧ marked ⊆ d.sweepAll bound marked all ∧
      ∀ k ∈ all, k ∉ d.sweepAll bound marked all →
        d.leadsTo (d.sweepAll bound marked all) k = false := by
  induction bound generalizing marked with
  | zero =>
      refine ⟨marking, fun _ member => member, fun k member outside => ?_⟩
      have full := (List.subperm_of_subset marking.nodup marking.inside).perm_of_length_le enough
      exact absurd (full.mem_iff.mpr member) outside
  | succ bound ih =>
      obtain ⟨kept, more, grown⟩ := marking.sweep (List.Subset.refl all)
      rw [DFA.sweepAll]
      rcases grown with longer | ⟨same, settled⟩
      · rw [if_neg (by omega)]
        obtain ⟨done, further, settled⟩ := ih kept (by omega)
        exact ⟨done, fun _ member => further (more member), settled⟩
      · rw [if_pos (by rw [same])]
        exact ⟨marking, fun _ member => member, settled⟩

/-! ### Pairs of a set of states -/

theorem mem_pairsOf {l : List State} (sorted : l.Pairwise fun p q => compare p q = .lt) :
    (p, q) ∈ pairsOf l ↔ p ∈ l ∧ q ∈ l ∧ compare p q = .lt := by
  induction l with
  | nil => simp [pairsOf]
  | cons r l ih =>
      obtain ⟨first, sorted⟩ := List.pairwise_cons.mp sorted
      rw [pairsOf, List.mem_append, ih sorted]
      constructor
      · intro either
        rcases either with here | later
        · obtain ⟨s, member, same⟩ := List.mem_map.mp here
          cases same
          exact ⟨List.mem_cons_self, List.mem_cons_of_mem _ member, first _ member⟩
        · exact ⟨List.mem_cons_of_mem r later.1, List.mem_cons_of_mem r later.2.1, later.2.2⟩
      · intro ⟨hp, hq, order⟩
        rcases List.mem_cons.mp hp with rfl | hp
        · rcases List.mem_cons.mp hq with rfl | hq
          · simp at order
          · exact .inl (List.mem_map.mpr ⟨q, hq, rfl⟩)
        · rcases List.mem_cons.mp hq with same | hq
          · have other := first p hp
            rw [same] at order
            rw [Std.OrientedCmp.gt_iff_lt.mpr order] at other
            cases other
          · exact .inr ⟨hp, hq, order⟩

theorem nodup_pairsOf {l : List State} (sorted : l.Pairwise fun p q => compare p q = .lt) :
    (pairsOf l).Nodup := by
  induction l with
  | nil => exact .nil
  | cons r l ih =>
      obtain ⟨first, sorted⟩ := List.pairwise_cons.mp sorted
      have different : l.Nodup := sorted.imp fun below same => by simp [same] at below
      refine List.nodup_append.mpr ⟨different.map fun p q same => (Prod.mk.inj same).2,
        ih sorted, fun j here k later same => ?_⟩
      obtain ⟨s, _, rfl⟩ := List.mem_map.mp here
      subst same
      have below := first r ((mem_pairsOf sorted).mp later).1
      simp at below

/-- A set of states that no run leaves. -/
structure Sealed (d : DFA) (S : SortedSet State) : Prop where
  states : S ⊆ d.states
  next_mem : ∀ p ∈ S, ∀ c q, d.next p c = some q → q ∈ S

theorem Sealed.next_ok (enclosed : d.Sealed S) (member : p ∈ S) (letter : c ∈ d.alphabet) :
    ∃ q ∈ S, d.next p c = some q := by
  obtain ⟨q, _, move⟩ := DFA.next_ok (enclosed.states p member) letter
  exact ⟨q, enclosed.next_mem p member c q move, move⟩

theorem ordered_mem_pairsOf (hp : p ∈ S) (hq : q ∈ S) (different : p ≠ q) :
    ordered p q ∈ pairsOf S.toList := by
  unfold ordered
  cases order : compare p q with
  | lt => exact (mem_pairsOf S.sorted).mpr ⟨hp, hq, order⟩
  | eq => exact absurd (Std.compare_eq_iff_eq.mp order) different
  | gt => exact (mem_pairsOf S.sorted).mpr ⟨hq, hp, Std.OrientedCmp.gt_iff_lt.mp order⟩

/-- No pair outside the marked ones differs or leads to a marked one. -/
structure Settled (d : DFA) (S : SortedSet State) (marked : List (State × State)) : Prop where
  differ : ∀ k ∈ pairsOf S.toList, k ∉ marked → d.differ k.1 k.2 = false
  leadsTo : ∀ k ∈ pairsOf S.toList, k ∉ marked → d.leadsTo marked k = false

/-- Once marking is settled, no word tells the states of an unmarked pair apart. -/
theorem Settled.recognizesFrom_eq (settled : d.Settled S marked) (enclosed : d.Sealed S)
    (covered : ∀ c ∈ w, c ∈ d.alphabet) (hp : p ∈ S) (hq : q ∈ S) (different : p ≠ q)
    (outside : ordered p q ∉ marked) : d.recognizesFrom p w = d.recognizesFrom q w := by
  have pair := ordered_mem_pairsOf hp hq different
  induction w generalizing p q with
  | nil =>
      have same := settled.differ _ pair outside
      rcases ordered_cases p q with order | order
      · rw [order] at same
        exact differ_eq_false.mp same
      · rw [order] at same
        exact (differ_eq_false.mp same).symm
  | cons c w ih =>
      have letter := covered c List.mem_cons_self
      obtain ⟨p', hp', first⟩ := enclosed.next_ok hp letter
      obtain ⟨q', hq', second⟩ := enclosed.next_ok hq letter
      rw [recognizesFrom_cons first, recognizesFrom_cons second]
      by_cases same : p' = q'
      · rw [same]
      · apply ih (fun b later => covered b (List.mem_cons_of_mem c later)) hp' hq' same _
          (ordered_mem_pairsOf hp' hq' same)
        intro inside
        have stuck := settled.leadsTo _ pair outside
        apply Bool.eq_false_iff.mp stuck
        rw [leadsTo_iff]
        rcases ordered_cases p q with order | order
        · rw [order]
          exact ⟨(p', q'), mem_nextPairs.mpr ⟨c, letter, first, second⟩, same, inside⟩
        · rw [order]
          refine ⟨(q', p'), mem_nextPairs.mpr ⟨c, letter, second, first⟩, Ne.symm same, ?_⟩
          rwa [ordered_comm]

/-- Marked pairs that are settled and told apart are all the pairs that can be told apart. -/
theorem Settled.mem_iff (settled : d.Settled S marked) (apart : ∀ k ∈ marked, ¬d.Equivalent k.1 k.2)
    (enclosed : d.Sealed S) (hp : p ∈ S) (hq : q ∈ S) (order : compare p q = .lt) :
    (p, q) ∈ marked ↔ ¬d.Equivalent p q := by
  refine ⟨apart (p, q), fun different => ?_⟩
  by_contra outside
  have sorted : ordered p q = (p, q) := by rw [ordered, if_neg (by simp [order])]
  rw [← sorted] at outside
  refine different fun w covered => settled.recognizesFrom_eq enclosed covered hp hq ?_ outside
  rintro rfl
  simp at order

/-- In a set that no run leaves, the pairs that are found are those that some word tells apart. -/
theorem mem_distinguishablePairs (enclosed : d.Sealed S) (hp : p ∈ S) (hq : q ∈ S)
    (order : compare p q = .lt) :
    (p, q) ∈ d.distinguishablePairs S.toList ↔ ¬d.Equivalent p q := by
  have start : d.Marking (pairsOf S.toList)
      ((pairsOf S.toList).filter fun k => d.differ k.1 k.2) := by
    refine ⟨(nodup_pairsOf S.sorted).filter _, List.filter_sublist.subset, fun k member same => ?_⟩
    have differ := (List.mem_filter.mp member).2
    simp [differ_eq_false.mpr (same [] (by simp))] at differ
  obtain ⟨marking, more, settled⟩ := start.sweepAll (Nat.le_add_left _ _)
  have listed := (mem_pairsOf S.sorted).mpr ⟨hp, hq, order⟩
  simp only [distinguishablePairs, S.sort_toList, List.mem_eraseDups, List.mem_filter,
    decide_eq_true_eq, listed, true_and]
  refine Settled.mem_iff ⟨fun k pair outside => ?_, settled⟩ marking.apart enclosed hp hq order
  by_contra differ
  exact outside (more (List.mem_filter.mpr ⟨pair, by simpa using differ⟩))

/-- The order in which the states are listed does not matter. -/
theorem distinguishablePairs_of_sort {l : List State} (sorted : Sorting.sort l = S.toList) :
    d.distinguishablePairs l = d.distinguishablePairs S.toList := by
  simp only [distinguishablePairs, sorted, S.sort_toList]

end DFA

end Automata
