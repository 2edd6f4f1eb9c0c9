import Automata.NFA.Path
import Automata.Proofs.Regex.Language
import Automata.Proofs.Worklist

/-! # The language of an automaton

A run keeps the states at the ends of all paths that spell what has been read, so that a word is
accepted exactly when a path spells it. The words that are accepted from each state are the least
family of languages that is closed under the edges; constructions on automata are compared by that.
-/

namespace Automata

/-- What an edge under a label adds to a word. -/
def Symbol.spelled (a : Symbol) : List Char := if a = Symbol.epsilon then [] else a.toList

@[simp] theorem Symbol.spelled_epsilon : Symbol.epsilon.spelled = [] := rfl

theorem Symbol.spelled_ofChar {c : Char} (letter : c ≠ 'ε') : (Symbol.ofChar c).spelled = [c] := by
  have other : Symbol.ofChar c ≠ Symbol.epsilon := fun same =>
    letter (Symbol.ofChar_injective same)
  rw [Symbol.spelled, if_neg other]
  simp [Symbol.ofChar]

namespace Alphabet

variable {A : Alphabet} {a : Symbol} {c : Char} {word : String}

theorem ne_epsilon (member : c ∈ A) : c ≠ 'ε' := by
  rintro rfl
  exact A.epsilon_not_mem member

theorem mem_symbols : a ∈ A.symbols ↔ ∃ c ∈ A, a = Symbol.ofChar c := by
  rw [symbols, List.mem_map]
  constructor
  · rintro ⟨c, member, rfl⟩
    exact ⟨c, member, rfl⟩
  · rintro ⟨c, member, rfl⟩
    exact ⟨c, member, rfl⟩

theorem check_ok (covered : ∀ c ∈ word.toList, c ∈ A) : A.check word = .ok () := by
  have none : word.toList.find? (fun c => decide (c ∉ A)) = none := by
    rw [List.find?_eq_none]
    intro c member
    simpa using covered c member
  rw [check, none]

theorem check_error (foreign : ¬ ∀ c ∈ word.toList, c ∈ A) :
    ∃ e, A.check word = .error e ∧ e.kind = .alphabet := by
  rw [check]
  split
  · exact ⟨_, rfl, rfl⟩
  · rename_i none
    refine absurd (fun c member => ?_) foreign
    simpa using List.find?_eq_none.mp none c member

end Alphabet

namespace NFA

variable {n : NFA} {p q r : State} {c : Char} {u v w : List Char}

/-- A label of an edge is ε or a character of the alphabet. -/
theorem label_cases {e : Edge} (member : e ∈ n.edges) :
    e.label = Symbol.epsilon ∨ ∃ c ∈ n.alphabet, e.label = Symbol.ofChar c :=
  (n.label_mem e member).imp_right Alphabet.mem_symbols.mp

theorem Path.step {e : Edge} (member : e ∈ n.edges) (path : n.Path e.target w q) :
    n.Path e.source (e.label.spelled ++ w) q := by
  obtain ⟨p, a, r⟩ := e
  rcases label_cases member with reads | ⟨c, letter, reads⟩
  · obtain rfl : a = Symbol.epsilon := reads
    exact .epsilon member path
  · obtain rfl : a = Symbol.ofChar c := reads
    show n.Path p ((Symbol.ofChar c).spelled ++ w) q
    rw [Symbol.spelled_ofChar (Alphabet.ne_epsilon letter)]
    exact .cons (Alphabet.ne_epsilon letter) member path

theorem path_cons_iff :
    n.Path p (c :: w) q ↔
      ∃ r s, n.Path p [] r ∧ c ≠ 'ε' ∧ ⟨r, Symbol.ofChar c, s⟩ ∈ n.edges ∧ n.Path s w q := by
  constructor
  · intro path
    generalize same : c :: w = v at path
    induction path with
    | nil => cases same
    | epsilon edge _ ih =>
        obtain ⟨r, s, before, letter, move, after⟩ := ih same
        exact ⟨r, s, .epsilon edge before, letter, move, after⟩
    | cons letter edge path =>
        cases same
        exact ⟨_, _, .nil, letter, edge, path⟩
  · rintro ⟨r, s, before, letter, move, after⟩
    exact before.append (.cons letter move after)

theorem Path.mem_alphabet (path : n.Path p w q) : ∀ c ∈ w, c ∈ n.alphabet := by
  induction path with
  | nil => simp
  | epsilon _ _ ih => exact ih
  | cons letter edge _ ih =>
      intro d member
      rcases List.mem_cons.mp member with rfl | rest
      · rcases n.label_mem _ edge with reads | reads
        · exact absurd (Symbol.ofChar_injective reads) letter
        · exact Alphabet.ofChar_mem_symbols.mp reads
      · exact ih d rest

/-! ### Words accepted from a state -/

/-- The words on paths from a state to an accepting one. -/
def wordsFrom (n : NFA) (p : State) : Language Char := {w | ∃ q ∈ n.accepting, n.Path p w q}

/-- The words on paths from the start to an accepting state. -/
def language (n : NFA) : Language Char := n.wordsFrom n.start

theorem mem_language : w ∈ n.language ↔ n.HasPath w := Iff.rfl

theorem nil_mem_wordsFrom (accepting : p ∈ n.accepting) : [] ∈ n.wordsFrom p :=
  ⟨p, accepting, .nil⟩

theorem append_mem_wordsFrom {e : Edge} (member : e ∈ n.edges) (h : w ∈ n.wordsFrom e.target) :
    e.label.spelled ++ w ∈ n.wordsFrom e.source := by
  obtain ⟨q, accepting, path⟩ := h
  exact ⟨q, accepting, path.step member⟩

/-- A family of languages that is closed under the edges holds all the words that are accepted. -/
theorem wordsFrom_le {F : State → Language Char} (accepting : ∀ p ∈ n.accepting, [] ∈ F p)
    (edges : ∀ e ∈ n.edges, ∀ w ∈ F e.target, e.label.spelled ++ w ∈ F e.source) (p : State) :
    n.wordsFrom p ≤ F p := by
  rintro w ⟨q, final, path⟩
  induction path with
  | nil => exact accepting _ final
  | epsilon edge _ ih => exact edges _ edge _ (ih final)
  | cons letter edge _ ih =>
      have := edges _ edge _ (ih final)
      rwa [Symbol.spelled_ofChar letter] at this

/-! ### Runs -/

theorem path_nil_iff {S : SortedSet State} :
    (∃ p ∈ S.toList, Worklist.Reaches
      (fun p => ((n.edges.labelled Symbol.epsilon).successors p Symbol.epsilon).toList) p q) ↔
      ∃ p ∈ S, n.Path p [] q := by
  refine exists_congr fun p => and_congr Iff.rfl ?_
  constructor
  · intro reaches
    induction reaches with
    | refl => exact .nil
    | tail _ step ih =>
        rw [SortedSet.mem_toList, EdgeSet.successors_labelled, EdgeSet.mem_successors] at step
        exact ih.append (.epsilon step .nil)
  · intro path
    generalize same : ([] : List Char) = v at path
    induction path with
    | nil => exact .refl
    | epsilon edge _ ih =>
        refine .head ?_ (ih same)
        rwa [SortedSet.mem_toList, EdgeSet.successors_labelled, EdgeSet.mem_successors]
    | cons => cases same

theorem mem_epsilonClosure {S : SortedSet State} :
    q ∈ n.epsilonClosure S ↔ ∃ p ∈ S, n.Path p [] q := by
  rw [epsilonClosure, SortedSet.mem_ofList, ← path_nil_iff]
  -- besides the roots, only targets of ε-moves can be reached
  have enough : (S.toList ++ (n.edges.labelled Symbol.epsilon).toList.map Edge.target).length ≤
      S.size + (n.edges.labelled Symbol.epsilon).size := by
    simp [SortedSet.size]
  refine Worklist.mem_discover (fun p root q reaches => ?_) enough
  induction reaches with
  | refl => exact List.mem_append_left _ root
  | tail _ step _ =>
      have edge := EdgeSet.mem_successors.mp step
      exact List.mem_append_right _ (List.mem_map.mpr ⟨_, edge, rfl⟩)

theorem mem_move {S : SortedSet State} {a : Symbol} :
    q ∈ n.move S a ↔ ∃ p ∈ S, ⟨p, a, q⟩ ∈ n.edges := by
  simp [move, EdgeSet.successors_labelled, EdgeSet.mem_successors]

theorem mem_advanceAll {S : SortedSet State} (letters : ∀ c ∈ w, c ≠ 'ε') :
    q ∈ n.advanceAll (n.epsilonClosure S) w ↔ ∃ p ∈ S, n.Path p w q := by
  induction w generalizing S with
  | nil => exact mem_epsilonClosure
  | cons c w ih =>
      have next : n.advanceAll (n.epsilonClosure S) (c :: w) =
          n.advanceAll (n.epsilonClosure (n.move (n.epsilonClosure S) (Symbol.ofChar c))) w := rfl
      rw [next, ih fun d member => letters d (List.mem_cons_of_mem c member)]
      constructor
      · rintro ⟨s, moved, after⟩
        obtain ⟨r, closed, move⟩ := mem_move.mp moved
        obtain ⟨p, member, before⟩ := mem_epsilonClosure.mp closed
        exact ⟨p, member, path_cons_iff.mpr ⟨r, s, before, letters c (by simp), move, after⟩⟩
      · rintro ⟨p, member, path⟩
        obtain ⟨r, s, before, _, move, after⟩ := path_cons_iff.mp path
        exact ⟨s, mem_move.mpr ⟨r, mem_epsilonClosure.mpr ⟨p, member, before⟩, move⟩, after⟩

theorem recognizes_iff (letters : ∀ c ∈ w, c ≠ 'ε') : n.recognizes w = true ↔ n.HasPath w := by
  rw [recognizes, isAccepting, SortedSet.meets_iff]
  refine exists_congr fun q => ?_
  rw [startSet, mem_advanceAll letters, and_comm]
  simp

/-! ### Acceptance -/

variable {m : NFA} {word : String}

theorem accepts_eq (covered : ∀ c ∈ word.toList, c ∈ n.alphabet) :
    n.accepts word = .ok (n.recognizes word.toList) := by
  rw [accepts, Alphabet.check_ok covered]
  rfl

/-- Over the alphabet, acceptance decides the language. -/
theorem accepts_ok (covered : ∀ c ∈ word.toList, c ∈ n.alphabet) :
    ∃ b, n.accepts word = .ok b ∧ (b = true ↔ word.toList ∈ n.language) :=
  ⟨_, accepts_eq covered, recognizes_iff fun c member => Alphabet.ne_epsilon (covered c member)⟩

theorem accepts_iff : n.accepts word = .ok true ↔ word.toList ∈ n.language := by
  by_cases covered : ∀ c ∈ word.toList, c ∈ n.alphabet
  · obtain ⟨b, run, decides⟩ := accepts_ok covered
    rw [run, ← decides]
    exact ⟨fun same => Except.ok.inj same, fun same => congrArg Except.ok same⟩
  · constructor
    · intro run
      obtain ⟨e, failure, _⟩ := Alphabet.check_error covered
      rw [accepts, failure] at run
      cases run
    · rintro ⟨q, _, path⟩
      exact absurd path.mem_alphabet covered

theorem accepts_eq_error_iff {e : Error} :
    n.accepts word = .error e ↔ n.alphabet.check word = .error e := by
  rw [accepts]
  cases n.alphabet.check word <;> simp [bind, Except.bind, pure, Except.pure]

/-- Automata of one language over one alphabet accept alike, down to their errors. -/
theorem accepts_congr (alphabet : m.alphabet = n.alphabet) (language : m.language = n.language) :
    m.accepts word = n.accepts word := by
  by_cases covered : ∀ c ∈ word.toList, c ∈ n.alphabet
  · obtain ⟨b, run, decides⟩ := accepts_ok covered
    obtain ⟨b', run', decides'⟩ :
        ∃ b, m.accepts word = .ok b ∧ (b = true ↔ word.toList ∈ m.language) :=
      accepts_ok (alphabet ▸ covered)
    rw [run, run', Bool.eq_iff_iff.mpr (decides'.trans (language ▸ decides.symm))]
  · obtain ⟨e, failure, _⟩ := Alphabet.check_error covered
    rw [accepts, accepts, alphabet, failure]
    rfl

end NFA

end Automata
