import Automata.Proofs.DFA.Distinguish
import Mathlib.Data.List.ProdSigma

/-! # Two ways to tell states apart

Following one pair of states forward and marking pairs backward give the same answers, since both
find exactly the pairs that some word tells apart.
-/

namespace Automata

namespace DFA

variable {d : DFA} {p q p' q' : State} {w : List Char} {k : State × State}

/-- States are equivalent unless some word, over the alphabet or not, tells them apart. -/
theorem not_equivalent_iff :
    ¬d.Equivalent p q ↔ ∃ w, d.recognizesFrom p w ≠ d.recognizesFrom q w := by
  constructor
  · intro apart
    simp only [Equivalent, not_forall] at apart
    obtain ⟨w, _, different⟩ := apart
    exact ⟨w, different⟩
  · rintro ⟨w, different⟩ same
    by_cases covered : ∀ c ∈ w, c ∈ d.alphabet
    · exact different (same w covered)
    · exact different ((recognizesFrom_foreign covered).trans (recognizesFrom_foreign covered).symm)

/-! ### Following one pair -/

/-- What a pair leads to is where some word leads its two states. -/
theorem exists_word_of_reaches (reaches : Worklist.Reaches d.nextPairs k (p', q')) :
    ∃ w, (∀ c ∈ w, c ∈ d.alphabet) ∧ d.run k.1 w = some p' ∧ d.run k.2 w = some q' := by
  induction reaches using Relation.ReflTransGen.head_induction_on with
  | refl => exact ⟨[], by simp, rfl, rfl⟩
  | head step _ ih =>
      obtain ⟨c, letter, first, second⟩ := mem_nextPairs.mp step
      obtain ⟨w, covered, left, right⟩ := ih
      exact ⟨c :: w, List.forall_mem_cons.mpr ⟨letter, covered⟩, by simp [run_cons, first, left],
        by simp [run_cons, second, right]⟩

theorem reaches_of_run (covered : ∀ c ∈ w, c ∈ d.alphabet) (left : d.run p w = some p')
    (right : d.run q w = some q') : Worklist.Reaches d.nextPairs (p, q) (p', q') := by
  induction w generalizing p q with
  | nil =>
      cases left
      cases right
      exact .refl
  | cons c w ih =>
      rw [run_cons] at left right
      obtain ⟨r, first, left⟩ := Option.bind_eq_some_iff.mp left
      obtain ⟨s, second, right⟩ := Option.bind_eq_some_iff.mp right
      obtain ⟨letter, covered⟩ := List.forall_mem_cons.mp covered
      exact .head (mem_nextPairs.mpr ⟨c, letter, first, second⟩) (ih covered left right)

/-- The forward search meets a pair that differs exactly if some word tells its two states apart. -/
theorem areDistinguishable_ok (hp : p ∈ d.states) (hq : q ∈ d.states) :
    ∃ b, d.areDistinguishable p q = .ok b ∧ (b = true ↔ ¬d.Equivalent p q) := by
  have found (k : State × State) : k ∈ Worklist.discover d.nextPairs
      (d.states.size * d.states.size) [(p, q)] ↔ Worklist.Reaches d.nextPairs (p, q) k := by
    have inside : ∀ j ∈ [(p, q)], ∀ k, Worklist.Reaches d.nextPairs j k →
        k ∈ d.states.toList ×ˢ d.states.toList := by
      rintro j start ⟨p', q'⟩ reaches
      obtain rfl := List.mem_singleton.mp start
      obtain ⟨w, covered, left, right⟩ := exists_word_of_reaches reaches
      obtain ⟨r, state, run⟩ := run_ok hp covered
      obtain ⟨s, state', run'⟩ := run_ok hq covered
      obtain rfl : r = p' := by simpa [run] using left
      obtain rfl : s = q' := by simpa [run'] using right
      exact List.mem_product.mpr ⟨state, state'⟩
    rw [Worklist.mem_discover inside (by rw [List.length_product]; rfl)]
    simp
  refine ⟨_, by rw [areDistinguishable, checkState, checkState, if_pos hp, if_pos hq]; rfl, ?_⟩
  rw [List.any_eq_true]
  constructor
  · rintro ⟨⟨p', q'⟩, member, differ⟩ same
    obtain ⟨w, covered, left, right⟩ := exists_word_of_reaches ((found _).mp member)
    have ends := same w covered
    simp only [recognizesFrom, left, right, Option.any_some] at ends
    simp [DFA.differ, ends] at differ
  · intro apart
    simp only [Equivalent, not_forall] at apart
    obtain ⟨w, covered, different⟩ := apart
    obtain ⟨p', _, left⟩ := run_ok hp covered
    obtain ⟨q', _, right⟩ := run_ok hq covered
    refine ⟨(p', q'), (found _).mpr (reaches_of_run covered left right), ?_⟩
    simpa [recognizesFrom, left, right, DFA.differ] using different

/-- Marking finds the pairs that the forward search answers yes for, and these are the pairs that
    some word tells apart. The search answers for all states, in either order. -/
theorem distinguishable_agree (d : DFA) :
    (∀ l : List State, l.Nodup → (∀ p ∈ l, p ∈ d.states) →
      (∀ p ∈ l, ∀ c q, d.next p c = some q → q ∈ l) →
        ∀ p ∈ l, ∀ q ∈ l, compare p q = .lt →
          ((p, q) ∈ d.distinguishablePairs l ↔ d.areDistinguishable p q = .ok true) ∧
          (d.areDistinguishable p q = .ok true ↔
            ∃ w, d.recognizesFrom p w ≠ d.recognizesFrom q w)) ∧
    ∀ p ∈ d.states, ∀ q ∈ d.states, ∃ b, d.areDistinguishable p q = .ok b ∧
      d.areDistinguishable q p = .ok b ∧
      (b = true ↔ ∃ w, d.recognizesFrom p w ≠ d.recognizesFrom q w) := by
  constructor
  · intro l nodup states closed p hp q hq order
    have enclosed : d.Sealed (.ofList l) :=
      ⟨fun r member => states r (SortedSet.mem_ofList.mp member), fun r member c s move =>
        SortedSet.mem_ofList.mpr (closed r (SortedSet.mem_ofList.mp member) c s move)⟩
    have first : p ∈ SortedSet.ofList l := SortedSet.mem_ofList.mpr hp
    have second : q ∈ SortedSet.ofList l := SortedSet.mem_ofList.mpr hq
    have sorted : Sorting.sort l = (SortedSet.ofList l).toList :=
      SortedSet.sort_eq_toList nodup fun _ => SortedSet.mem_ofList.symm
    obtain ⟨b, answer, sound⟩ := areDistinguishable_ok (states p hp) (states q hq)
    have search : d.areDistinguishable p q = .ok true ↔ ¬d.Equivalent p q := by
      rw [answer, ← sound, Except.ok.injEq]
    refine ⟨?_, search.trans not_equivalent_iff⟩
    rw [search, distinguishablePairs_of_sort sorted]
    exact mem_distinguishablePairs enclosed first second order
  · intro p hp q hq
    obtain ⟨b, answer, sound⟩ := areDistinguishable_ok hp hq
    obtain ⟨b', answer', sound'⟩ := areDistinguishable_ok hq hp
    have same : b = b' := by
      rw [Bool.eq_iff_iff, sound, sound']
      exact not_congr ⟨.symm, .symm⟩
    exact ⟨b, answer, same ▸ answer', sound.trans not_equivalent_iff⟩

/-- A state that accepts and one that leads there, listed larger state first. -/
theorem distinguishable_agree_pair :
    let a : State := ⟨"a"⟩
    let b : State := ⟨"b"⟩
    let D : MoveDiagram := ⟨.ofList [a, b], ⟨.ofList ['x'], by decide, by decide⟩,
      .ofList [((a, "x"), b), ((b, "x"), b)], a, .ofList [b]⟩
    ∃ d, ofDiagram D = .ok d ∧ (a, b) ∈ d.distinguishablePairs [b, a] ∧
      d.areDistinguishable a b = .ok true ∧ d.areDistinguishable b a = .ok true := by
  intro a b D
  let d : DFA := ⟨D, ⟨by decide +kernel, by decide +kernel, by decide +kernel, by decide +kernel⟩,
    by decide +kernel, by decide +kernel⟩
  have states : ∀ p ∈ [b, a], p ∈ d.states := by decide +kernel
  have closed : ∀ p ∈ [b, a], ∀ c q, d.next p c = some q → q ∈ [b, a] := by
    intro p member c q move
    obtain rfl : c = 'x' := List.mem_singleton.mp (SortedSet.mem_ofList.mp (label_letter move))
    have leads : ∀ p ∈ [b, a], d.next p 'x' = some b := by decide +kernel
    obtain rfl : b = q := by simpa [leads p member] using move
    exact List.mem_cons_self
  have apart : ∃ w, d.recognizesFrom a w ≠ d.recognizesFrom b w := ⟨[], by decide +kernel⟩
  obtain ⟨marked, search⟩ := (distinguishable_agree d).1 [b, a] (by decide) states closed
    a (by decide) b (by decide) (by decide)
  obtain ⟨answer, found, found', known⟩ := (distinguishable_agree d).2 a (states a (by decide))
    b (states b (by decide))
  have yes := search.mpr apart
  rw [known.mpr apart] at found'
  exact ⟨d, ofDiagram_eq d.closed d.label_mem d.total, marked.mpr yes, yes, found'⟩

end DFA

end Automata
