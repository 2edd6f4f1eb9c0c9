import Automata.Proofs.Regex.Language
import Automata.Proofs.Worklist
import Automata.Regex.Simplified
import Mathlib.Algebra.BigOperators.Ring.List

/-! # What simplifying constructors keep

The simplifying constructors build expressions of the same languages as the plain ones. They also
keep every property that concatenations, unions and stars share with their parts, such as being
over an alphabet or being writable.
-/

open scoped Computability

namespace Automata.Regex

variable {A : Alphabet} {r : Regex} {l : List Regex} {w : List Char}

theorem language_factors : ((factors r).map (language A)).prod = r.language A := by
  cases r with
  | empty => simp [factors]
  | concat parts => exact language_concat.symm
  | _ => simp [factors]

theorem language_flatMap_factors :
    ((l.flatMap factors).map (language A)).prod = (l.map (language A)).prod := by
  induction l with
  | nil => rfl
  | cons r l ih => simp [ih, language_factors]

theorem language_concatOf : (concatOf l).language A = (l.map (language A)).prod := by
  unfold concatOf
  split
  · rename_i nullPart
    obtain ⟨r, member, isNull⟩ := List.any_eq_true.mp nullPart
    obtain rfl := isNull_iff.mp isNull
    exact (List.prod_eq_zero (List.mem_map.mpr ⟨_, member, language_null⟩)).symm ▸ language_null
  · rw [← language_flatMap_factors]
    split
    · rename_i none
      simp [none]
    · rename_i only
      simp [only]
    · exact language_concat

theorem distinct_eq_unknown {known : List Regex} :
    distinct known l = Worklist.unknown known l := by
  induction l generalizing known with
  | nil => rfl
  | cons r l ih => simp only [distinct, Worklist.unknown, ih]

theorem mem_distinct_alternatives :
    r ∈ distinct [] (l.flatMap alternatives) ↔ ∃ s ∈ l, r ∈ alternatives s := by
  rw [distinct_eq_unknown, Worklist.mem_unknown]
  simp

theorem matches_alternatives : (∃ s ∈ alternatives r, Matches A s w) ↔ Matches A r w := by
  cases r with
  | null =>
      have nothing : ¬ Matches A .null w := by
        intro h
        cases h
      simp [alternatives, nothing]
  | union parts => exact matches_union.symm
  | _ => simp [alternatives]

theorem matches_unionOf : Matches A (unionOf l) w ↔ ∃ r ∈ l, Matches A r w := by
  have parts : Matches A (unionOf l) w ↔
      ∃ s ∈ distinct [] (l.flatMap alternatives), Matches A s w := by
    unfold unionOf
    split
    · rename_i none
      rw [none, ← mem_language, language_null]
      simp [Language.notMem_zero]
    · rename_i only
      simp [only]
    · exact matches_union
  rw [parts]
  constructor
  · rintro ⟨s, member, h⟩
    obtain ⟨r, inside, part⟩ := mem_distinct_alternatives.mp member
    exact ⟨r, inside, matches_alternatives.mp ⟨s, part, h⟩⟩
  · rintro ⟨r, inside, h⟩
    obtain ⟨s, part, h⟩ := matches_alternatives.mpr h
    exact ⟨s, mem_distinct_alternatives.mpr ⟨r, inside, part⟩, h⟩

theorem language_starOf : (starOf r).language A = (r.language A)∗ := by
  cases r with
  | empty => simp [starOf]
  | null => simp [starOf]
  | star r => simp [starOf]
  | _ => exact language_star

/-! ### Properties shared with the parts -/

/-- A property that concatenations, unions and stars have exactly when their parts do. -/
structure Hereditary (P : Regex → Prop) : Prop where
  empty : P .empty
  null : P .null
  concat : ∀ l, P (.concat l) ↔ ∀ r ∈ l, P r
  union : ∀ l, P (.union l) ↔ ∀ r ∈ l, P r
  star : ∀ r, P (.star r) ↔ P r

theorem hereditary_isOver (A : Alphabet) : Hereditary (IsOver A) where
  empty := trivial
  null := trivial
  concat _ := areOver_iff
  union _ := areOver_iff
  star _ := Iff.rfl

namespace Hereditary

variable {P : Regex → Prop}

theorem factors (hereditary : Hereditary P) (h : P r) : ∀ s ∈ r.factors, P s := by
  cases r with
  | empty => simp [Regex.factors]
  | concat parts => exact (hereditary.concat parts).mp h
  | _ => simpa [Regex.factors] using h

theorem alternatives (hereditary : Hereditary P) (h : P r) : ∀ s ∈ r.alternatives, P s := by
  cases r with
  | null => simp [Regex.alternatives]
  | union parts => exact (hereditary.union parts).mp h
  | _ => simpa [Regex.alternatives] using h

theorem concatOf (hereditary : Hereditary P) (h : ∀ r ∈ l, P r) : P (concatOf l) := by
  have all : ∀ s ∈ l.flatMap Regex.factors, P s := by
    intro s member
    obtain ⟨r, inside, part⟩ := List.mem_flatMap.mp member
    exact hereditary.factors (h r inside) s part
  unfold Regex.concatOf
  split
  · exact hereditary.null
  · split
    · exact hereditary.empty
    · rename_i only
      exact all _ (by simp [only])
    · exact (hereditary.concat _).mpr all

theorem unionOf (hereditary : Hereditary P) (h : ∀ r ∈ l, P r) : P (unionOf l) := by
  have all : ∀ s ∈ distinct [] (l.flatMap Regex.alternatives), P s := by
    intro s member
    obtain ⟨r, inside, part⟩ := mem_distinct_alternatives.mp member
    exact hereditary.alternatives (h r inside) s part
  unfold Regex.unionOf
  split
  · exact hereditary.null
  · rename_i only
    exact all _ (by simp [only])
  · exact (hereditary.union _).mpr all

theorem starOf (hereditary : Hereditary P) (h : P r) : P (starOf r) := by
  cases r with
  | empty | null => exact hereditary.empty
  | star r => exact h
  | _ => exact (hereditary.star _).mpr h

end Hereditary

/-! ### The shape of unions -/

/-- What a union can hold as it is: neither the null expression nor another union. -/
def IsAlternative : Regex → Prop
  | .null | .union _ => False
  | _ => True

/-- An expression that is no union, or a union that holds its parts as they are. -/
def IsFlat : Regex → Prop
  | .union parts => ∀ r ∈ parts, r.IsAlternative
  | _ => True

theorem IsFlat.isAlternative {s : Regex} (flat : s.IsFlat) (member : r ∈ s.alternatives) :
    r.IsAlternative := by
  cases s with
  | null => cases member
  | union parts => exact flat r member
  | _ =>
      obtain rfl := List.mem_singleton.mp member
      trivial

theorem IsAlternative.isFlat (h : r.IsAlternative) : r.IsFlat := by
  cases r with
  | union parts => cases h
  | _ => trivial

theorem isAlternative_of_mem_distinct (flat : ∀ s ∈ l, s.IsFlat)
    (member : r ∈ distinct [] (l.flatMap alternatives)) : r.IsAlternative := by
  obtain ⟨s, inside, part⟩ := mem_distinct_alternatives.mp member
  exact (flat s inside).isAlternative part

/-- A union of flat expressions is flat. When it is a union at all, it has several parts, and no
    part is repeated or null. -/
theorem unionOf_isFlat (flat : ∀ s ∈ l, s.IsFlat) :
    (unionOf l).IsFlat ∧ ∀ parts, unionOf l = .union parts →
      2 ≤ parts.length ∧ parts.Nodup ∧ .null ∉ parts := by
  have alternative := fun s => isAlternative_of_mem_distinct (r := s) flat
  have nodup : (distinct [] (l.flatMap alternatives)).Nodup := by
    rw [distinct_eq_unknown]
    exact Worklist.nodup_unknown
  unfold unionOf
  split
  · exact ⟨trivial, by simp⟩
  · rename_i s only
    have alone : s.IsAlternative := alternative s (by simp [only])
    refine ⟨alone.isFlat, fun parts same => ?_⟩
    subst same
    cases alone
  · rename_i none single
    refine ⟨alternative, fun parts same => ?_⟩
    obtain rfl := Regex.union.inj same
    refine ⟨?_, nodup, fun null => alternative _ null⟩
    match parts : distinct [] (l.flatMap alternatives) with
    | [] => exact absurd parts none
    | [s] => exact absurd parts (single s)
    | _ :: _ :: _ => simp

theorem language_unionOf : (unionOf l).language A = (l.map (language A)).sum := by
  ext w
  rw [mem_language, matches_unionOf, mem_sum_map]
  rfl

/-- The simplifying constructors have the languages of the plain ones, whatever they are applied
    to. From flat expressions a union is built that is flat as well, with several different parts
    and without null ones. -/
theorem simplified_languages (A : Alphabet) (l : List Regex) (r : Regex) :
    (concatOf l).language A = (l.map (language A)).prod ∧
    (unionOf l).language A = (l.map (language A)).sum ∧
    (starOf r).language A = (r.language A)∗ ∧
    ((∀ s ∈ l, s.IsFlat) → (unionOf l).IsFlat ∧ ∀ parts, unionOf l = .union parts →
      2 ≤ parts.length ∧ parts.Nodup ∧ .null ∉ parts) :=
  ⟨language_concatOf, language_unionOf, language_starOf, unionOf_isFlat⟩

/-- A letter occurs alone and in a union, next to a null expression. -/
theorem simplified_languages_repeated :
    let l : List Regex := [.union [.lit "a", .lit "b"], .null, .lit "a"]
    (∀ s ∈ l, s.IsFlat) ∧ unionOf l = .union [.lit "a", .lit "b"] ∧
      ([.lit "a", .lit "b"] : List Regex).Nodup := by
  intro l
  have flat : ∀ s ∈ l, s.IsFlat := by simp [l, IsFlat, IsAlternative]
  have built : unionOf l = .union [.lit "a", .lit "b"] := by decide +kernel
  let A : Alphabet := ⟨.ofList ['a', 'b'], by decide, by decide⟩
  exact ⟨flat, built, (((simplified_languages A l .empty).2.2.2 flat).2 _ built).2.1⟩

end Automata.Regex
