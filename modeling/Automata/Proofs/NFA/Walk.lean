import Automata.NFA.Walk
import Automata.Proofs.NFA.Scan
import Automata.Proofs.NFA.Words

/-! # Runs and walks

A run keeps sets of states and closes them under ε-moves, and it accepts exactly the texts that some
walk from the start to an accepting state spells. The closure of a set holds the states at the ends
of the walks that begin in it and read nothing.
-/

namespace Automata

/-- Every edge of a walk adds what its label spells. -/
theorem Edge.toList_spelling (l : List Edge) :
    (Edge.spelling l).toList = l.flatMap fun e => e.label.spelled := by
  rw [spelling, String.toList_join]
  induction l with
  | nil => rfl
  | cons e l ih =>
      by_cases waits : e.label = Symbol.epsilon
      · simpa [waits] using ih
      · simpa [waits, Symbol.spelled] using ih

namespace NFA

variable {n : NFA} {p q : State} {l : List Edge} {w : List Char} {S : SortedSet State}

/-! ### Walks and paths -/

theorem Walk.path (walk : n.Walk p l q) : n.Path p (l.flatMap fun e => e.label.spelled) q := by
  induction walk with
  | nil => exact .nil
  | cons edge _ ih => exact ih.step edge

theorem Path.exists_walk (path : n.Path p w q) :
    ∃ l, n.Walk p l q ∧ l.flatMap (fun e => e.label.spelled) = w := by
  induction path with
  | nil => exact ⟨[], .nil, rfl⟩
  | epsilon edge _ ih =>
      obtain ⟨l, walk, rfl⟩ := ih
      exact ⟨_ :: l, .cons edge walk, rfl⟩
  | cons letter edge _ ih =>
      obtain ⟨l, walk, rfl⟩ := ih
      refine ⟨_ :: l, .cons edge walk, ?_⟩
      rw [List.flatMap_cons, Symbol.spelled_ofChar letter, List.singleton_append]

theorem hasWalk_iff {word : String} : n.HasWalk word ↔ word.toList ∈ n.language := by
  refine exists_congr fun q => and_congr_right fun _ => ?_
  constructor
  · rintro ⟨l, walk, rfl⟩
    rw [Edge.toList_spelling]
    exact walk.path
  · intro path
    obtain ⟨l, walk, spelled⟩ := path.exists_walk
    exact ⟨l, walk, String.toList_inj.mp ((Edge.toList_spelling l).trans spelled)⟩

theorem Walk.mem_edges (walk : n.Walk p l q) : ∀ e ∈ l, e ∈ n.edges := by
  induction walk with
  | nil => simp
  | cons edge _ ih => exact List.forall_mem_cons.mpr ⟨edge, ih⟩

/-- Of the labels of an automaton only ε spells nothing. -/
theorem spelled_eq_nil_iff {e : Edge} (edge : e ∈ n.edges) :
    e.label.spelled = [] ↔ e.label = Symbol.epsilon := by
  rcases label_cases edge with waits | ⟨c, letter, reads⟩
  · simp [waits]
  · rw [reads, Symbol.spelled_ofChar (Alphabet.ne_epsilon letter)]
    have other : Symbol.ofChar c ≠ Symbol.epsilon := fun same =>
      Alphabet.ne_epsilon letter (Symbol.ofChar_injective same)
    simp [other]

theorem path_nil_iff_walk : n.Path p [] q ↔
    ∃ l, n.Walk p l q ∧ ∀ e ∈ l, e.label = Symbol.epsilon := by
  constructor
  · intro path
    obtain ⟨l, walk, nothing⟩ := path.exists_walk
    have silent := List.flatMap_eq_nil_iff.mp nothing
    exact ⟨l, walk, fun e listed =>
      (spelled_eq_nil_iff (walk.mem_edges e listed)).mp (silent e listed)⟩
  · rintro ⟨l, walk, waits⟩
    have nothing : l.flatMap (fun e => e.label.spelled) = [] :=
      List.flatMap_eq_nil_iff.mpr fun e listed => by rw [waits e listed, Symbol.spelled_epsilon]
    exact nothing ▸ walk.path

/-! ### Runs that end early -/

/-- No state comes back once none is left, so that nothing is lost by not reading on. -/
theorem recognizesWhileActive_eq :
    n.recognizesWhileActive S w = n.isAccepting (n.advanceAll S w) := by
  induction w generalizing S with
  | nil => rfl
  | cons c w ih =>
      have next : n.advanceAll S (c :: w) = n.advanceAll (n.advance S c) w := rfl
      rw [recognizesWhileActive, ih, next]
      cases stopped : (n.advance S c).isEmpty with
      | false => rfl
      | true =>
          have empty : n.advance S c = ∅ := SortedSet.ext fun q =>
            iff_of_false (SortedSet.isEmpty_iff.mp stopped q) (SortedSet.not_mem_empty q)
          rw [empty, isAccepting_advanceAll_empty]
          rfl

/-- A word over the alphabet is accepted exactly if the labels on some walk from the start to an
    accepting state spell it, and a run that ends as soon as it has no states left answers the same.
    The closure of a set holds what walks that read nothing reach from it. -/
theorem accepts_iff_hasWalk (n : NFA) :
    n.Decides n.HasWalk ∧
    (∀ word, (∀ c ∈ word.toList, c ∈ n.alphabet) →
      n.accepts word = .ok (n.recognizesWhileActive n.startSet word.toList)) ∧
    ∀ (S : SortedSet State) (q : State), q ∈ n.epsilonClosure S ↔
      ∃ p ∈ S, ∃ l, n.Walk p l q ∧ ∀ e ∈ l, e.label = Symbol.epsilon := by
  refine ⟨decides_of_language fun word => hasWalk_iff.symm, fun word covered => ?_, fun S q => ?_⟩
  · rw [accepts_eq covered, recognizesWhileActive_eq]
    rfl
  · rw [mem_epsilonClosure]
    exact exists_congr fun p => and_congr_right fun _ => path_nil_iff_walk

/-- A circle of ε-moves between two states comes before the only edge that reads. -/
theorem accepts_iff_hasWalk_circle :
    let n : NFA := {
      states := .ofList [⟨"p"⟩, ⟨"q"⟩, ⟨"r"⟩]
      alphabet := ⟨.ofList ['a', 'b'], by decide, by decide⟩
      edges := .ofList [⟨⟨"p"⟩, Symbol.epsilon, ⟨"q"⟩⟩, ⟨⟨"q"⟩, Symbol.epsilon, ⟨"p"⟩⟩,
        ⟨⟨"q"⟩, "a", ⟨"r"⟩⟩]
      start := ⟨"p"⟩
      accepting := .ofList [⟨"r"⟩]
      closed := ⟨by decide +kernel, by decide +kernel, by decide +kernel, by decide +kernel⟩
      label_mem := by decide +kernel }
    (∀ c ∈ "a".toList, c ∈ n.alphabet) ∧ n.accepts "a" = .ok true ∧
      n.recognizesWhileActive n.startSet "a".toList = true ∧
      (⟨"q"⟩ : State) ∈ n.epsilonClosure (.singleton ⟨"p"⟩) := by
  intro n
  have letter : 'a' ∈ n.alphabet := by decide +kernel
  have covered : ∀ c ∈ "a".toList, c ∈ n.alphabet := by simp [letter]
  have leave : n.Walk ⟨"p"⟩ [⟨⟨"p"⟩, Symbol.epsilon, ⟨"q"⟩⟩] ⟨"q"⟩ :=
    .cons (e := ⟨⟨"p"⟩, Symbol.epsilon, ⟨"q"⟩⟩) (by decide +kernel) .nil
  have walk : n.Walk ⟨"p"⟩ [⟨⟨"p"⟩, Symbol.epsilon, ⟨"q"⟩⟩, ⟨⟨"q"⟩, "a", ⟨"r"⟩⟩] ⟨"r"⟩ :=
    .cons (e := ⟨⟨"p"⟩, Symbol.epsilon, ⟨"q"⟩⟩) (by decide +kernel)
      (.cons (e := ⟨⟨"q"⟩, "a", ⟨"r"⟩⟩) (by decide +kernel) .nil)
  obtain ⟨decides, early, closure⟩ := accepts_iff_hasWalk n
  have answer : n.accepts "a" = .ok true :=
    (decides.accepts_iff "a").mpr ⟨⟨"r"⟩, by decide +kernel, _, walk, by decide +kernel⟩
  have stops := (early "a" covered).symm.trans answer
  exact ⟨covered, answer, Except.ok.inj stops,
    (closure _ _).mpr ⟨⟨"p"⟩, by decide +kernel, _, leave, by simp⟩⟩

end NFA

end Automata
