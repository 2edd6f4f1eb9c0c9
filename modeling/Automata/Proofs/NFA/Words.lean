import Automata.Proofs.NFA.Extend

/-! # Words of combined automata

What the languages of combined automata say about single words: a word of a product, a power or a
star falls into parts that the operands accept.
-/

open scoped Computability

namespace Automata.NFA

variable {n : NFA} {l : List NFA} {a c : Allocator} {p : State} {w : List Char} {word : String}

/-- An automaton accepts exactly the words with a property, and it has an answer for every word over
    its alphabet. -/
structure Decides (n : NFA) (accepted : String → Prop) : Prop where
  accepts_iff : ∀ word, n.accepts word = .ok true ↔ accepted word
  answers : ∀ word : String, (∀ c ∈ word.toList, c ∈ n.alphabet) → ∃ b, n.accepts word = .ok b

theorem decides_of_language {accepted : String → Prop}
    (same : ∀ word : String, word.toList ∈ n.language ↔ accepted word) : n.Decides accepted where
  accepts_iff word := NFA.accepts_iff.trans (same word)
  answers _ covered := ⟨_, accepts_eq covered⟩

/-! ### Parts of words -/

/-- The parts of a word are texts, where those of a list of characters are lists. -/
theorem exists_parts_iff {P : List (List Char) → Prop} :
    (∃ L : List (List Char), word.toList = L.flatten ∧ P L) ↔
      ∃ parts : List String, word = String.join parts ∧ P (parts.map String.toList) := by
  constructor
  · rintro ⟨L, joined, holds⟩
    have back : (L.map String.ofList).map String.toList = L := by simp
    refine ⟨L.map String.ofList, ?_, by rwa [back]⟩
    rw [← String.toList_inj, String.toList_join, List.flatMap_def, back, joined]
  · rintro ⟨parts, rfl, holds⟩
    exact ⟨parts.map String.toList, by rw [String.toList_join, List.flatMap_def], holds⟩

theorem mem_prod_iff_flatten : w ∈ (l.map language).prod ↔
    ∃ L : List (List Char), w = L.flatten ∧ List.Forall₂ (fun n u => u ∈ n.language) l L := by
  induction l generalizing w with
  | nil => simp [Language.mem_one]
  | cons n l ih =>
      simp only [List.map_cons, List.prod_cons, Language.mem_mul, ih, List.forall₂_cons_left_iff]
      constructor
      · rintro ⟨u, front, _, ⟨L, rfl, back⟩, rfl⟩
        exact ⟨u :: L, rfl, u, L, front, back, rfl⟩
      · rintro ⟨_, rfl, u, L, front, back, rfl⟩
        exact ⟨u, front, L.flatten, ⟨L, rfl, back⟩, rfl⟩

/-- A word of a product has one part for each factor. -/
theorem mem_prod_iff_parts : word.toList ∈ (l.map language).prod ↔
    ∃ parts : List String, word = String.join parts ∧
      List.Forall₂ (fun n part => n.accepts part = .ok true) l parts := by
  simp only [mem_prod_iff_flatten, exists_parts_iff, List.forall₂_map_right_iff, accepts_iff]

theorem mem_pow_iff_parts {k : Nat} : word.toList ∈ n.language ^ k ↔
    ∃ parts : List String, word = String.join parts ∧ parts.length = k ∧
      ∀ part ∈ parts, n.accepts part = .ok true := by
  simp only [Language.mem_pow, exists_parts_iff, List.length_map, List.forall_mem_map, accepts_iff]

theorem mem_kstar_iff_parts : word.toList ∈ n.language∗ ↔
    ∃ parts : List String, word = String.join parts ∧
      ∀ part ∈ parts, n.accepts part = .ok true := by
  simp only [Language.mem_kstar, exists_parts_iff, List.forall_mem_map, accepts_iff]

/-! ### Stars -/

/-- A star can be built around any automaton, whatever leads into its start and out of its accepting
    states, if the next state is none of its own. It refuses the words that the operand refuses, and
    it accepts those that fall into any number of parts that the operand accepts. -/
theorem star_accepts_iff (taken : a.take = (.ok p, c)) (fresh : p ∉ n.states) :
    ∃ m, n.star.runFrom a = (.ok m, c) ∧
      (∀ word e, m.accepts word = .error e ↔ n.accepts word = .error e) ∧
      ∀ word, m.accepts word = .ok true ↔ ∃ parts : List String, word = String.join parts ∧
        ∀ part ∈ parts, n.accepts part = .ok true := by
  obtain ⟨m, run, diagram⟩ := star_run taken fresh
  refine ⟨m, run, fun word e => ?_, fun word => ?_⟩
  · have alphabet : m.alphabet = n.alphabet := by rw [diagram, starDiagram]
    rw [accepts_eq_error_iff, accepts_eq_error_iff, alphabet]
  · rw [accepts_iff, language_of_starDiagram fresh diagram, mem_kstar_iff_parts]

/-- A circle of two states, entered at the start and left from the accepting state. -/
theorem star_accepts_iff_circle :
    let n : NFA := {
      states := .ofList [⟨"p"⟩, ⟨"q"⟩]
      alphabet := ⟨.ofList ['a', 'b'], by decide, by decide⟩
      edges := .ofList [⟨⟨"p"⟩, "a", ⟨"q"⟩⟩, ⟨⟨"q"⟩, "b", ⟨"p"⟩⟩]
      start := ⟨"p"⟩
      accepting := .ofList [⟨"q"⟩]
      closed := ⟨by decide +kernel, by decide +kernel, by decide +kernel, by decide +kernel⟩
      label_mem := by decide +kernel }
    ∃ m, n.star.runFrom {} = (.ok m, { next := 1 }) ∧ m.accepts "aaba" = .ok true ∧
      m.accepts "" = .ok true ∧ n.accepts "aaba" = .ok false := by
  intro n
  obtain ⟨m, run, _, decides⟩ := star_accepts_iff (n := n) (a := {}) (c := { next := 1 })
    (p := ⟨"q0"⟩) rfl (by decide +kernel)
  refine ⟨m, run, ?_, ?_, by decide +kernel⟩
  · exact (decides "aaba").mpr ⟨["a", "aba"], by decide +kernel, by decide +kernel⟩
  · exact (decides "").mpr ⟨[], rfl, by simp⟩

end Automata.NFA
