import Automata.Regex.Characters
import Automata.Regex.Language
import Mathlib.Computability.Language
import Mathlib.Order.CompletePartialOrder

/-! # Languages of expressions

The words that an expression matches form a language, and every constructor of expressions has its
operation on languages. Expressions over an alphabet mention no other characters, so that they
match words over that alphabet only.
-/

open scoped Computability

namespace Automata

namespace Regex

/-- The words of a single character that satisfies a condition. -/
def letters (S : Char → Prop) : Language Char := {w | ∃ c, S c ∧ w = [c]}

/-- The words that an expression matches over an alphabet. -/
def language (A : Alphabet) (r : Regex) : Language Char := {w | Matches A r w}

variable {A : Alphabet} {r s : Regex} {l : List Regex} {w : List Char}

@[simp] theorem mem_language : w ∈ r.language A ↔ Matches A r w := Iff.rfl

@[simp] theorem mem_letters {S : Char → Prop} : w ∈ letters S ↔ ∃ c, S c ∧ w = [c] := Iff.rfl

theorem mem_sum_map {α : Type*} {f : α → Language Char} {l : List α} :
    w ∈ (l.map f).sum ↔ ∃ a ∈ l, w ∈ f a := by
  induction l with
  | nil => simp [Language.notMem_zero]
  | cons a l ih =>
      rw [List.map_cons, List.sum_cons, Language.mem_add, ih]
      simp

@[simp] theorem language_empty : (empty).language A = 1 := by
  ext w
  constructor
  · intro h
    cases h
    rfl
  · rintro rfl
    exact .empty

@[simp] theorem language_null : (null).language A = 0 := by
  ext w
  constructor
  · intro h
    cases h
  · intro h
    exact absurd h (Language.notMem_zero w)

theorem language_any : any.language A = letters (· ∈ A) := by
  ext w
  constructor
  · intro h
    cases h with
    | any member => exact ⟨_, member, rfl⟩
  · rintro ⟨c, member, rfl⟩
    exact .any member

theorem language_lit {text : String} :
    (lit text).language A = letters (· ∈ text.toList) := by
  ext w
  constructor
  · intro h
    cases h with
    | lit member => exact ⟨_, member, rfl⟩
  · rintro ⟨c, member, rfl⟩
    exact .lit member

theorem language_choice {symbols : SortedSet Symbol} :
    (choice symbols).language A = letters (Symbol.ofChar · ∈ symbols) := by
  ext w
  constructor
  · intro h
    cases h with
    | choice member => exact ⟨_, member, rfl⟩
  · rintro ⟨c, member, rfl⟩
    exact .choice member

@[simp] theorem language_concat_nil : (concat []).language A = 1 := by
  ext w
  constructor
  · intro h
    cases h
    rfl
  · rintro rfl
    exact .concatNil

@[simp] theorem language_concat_cons :
    (concat (r :: l)).language A = r.language A * (concat l).language A := by
  ext w
  rw [Language.mem_mul]
  constructor
  · intro h
    cases h with
    | concatCons first others => exact ⟨_, first, _, others, rfl⟩
  · rintro ⟨u, first, v, others, rfl⟩
    exact .concatCons first others

theorem language_concat : (concat l).language A = (l.map (language A)).prod := by
  induction l with
  | nil => simp
  | cons r l ih => simp [ih]

theorem matches_union : Matches A (union l) w ↔ ∃ r ∈ l, Matches A r w := by
  constructor
  · intro h
    cases h with
    | union member h => exact ⟨_, member, h⟩
  · rintro ⟨r, member, h⟩
    exact .union member h

theorem language_union : (union l).language A = (l.map (language A)).sum := by
  ext w
  rw [mem_sum_map]
  exact matches_union

@[simp] theorem language_star : (star r).language A = (r.language A)∗ := by
  ext w
  rw [Language.mem_kstar]
  constructor
  · intro h
    generalize same : star r = s at h
    induction h with
    | starNil => exact ⟨[], rfl, by simp⟩
    | starCons once more _ ih =>
        cases same
        obtain ⟨words, rfl, all⟩ := ih rfl
        exact ⟨_ :: words, rfl, by simpa using ⟨once, all⟩⟩
    | _ => cases same
  · rintro ⟨words, rfl, all⟩
    induction words with
    | nil => exact .starNil
    | cons u words ih =>
        exact .starCons (all u (by simp)) (ih fun v member => all v (by simp [member]))

@[simp] theorem language_plus : (plus r).language A = r.language A * (r.language A)∗ := by
  ext w
  rw [Language.mem_mul, ← language_star]
  constructor
  · intro h
    cases h with
    | plus once more => exact ⟨_, once, _, more, rfl⟩
  · rintro ⟨u, once, v, more, rfl⟩
    exact .plus once more

@[simp] theorem language_opt : (opt r).language A = 1 + r.language A := by
  ext w
  rw [Language.mem_add]
  constructor
  · intro h
    cases h with
    | optNone => exact .inl rfl
    | optSome h => exact .inr h
  · rintro (rfl | h)
    · exact .optNone
    · exact .optSome h

/-! ### Expressions over an alphabet -/

mutual

/-- Literals and choices mention characters of the alphabet only. -/
def IsOver (A : Alphabet) : Regex → Prop
  | .empty | .null | .any => True
  | .lit text => ∀ c ∈ text.toList, c ∈ A
  | .choice symbols => ∀ a ∈ symbols.toList, a ∈ A.symbols
  | .concat parts | .union parts => AreOver A parts
  | .star r | .plus r | .opt r => IsOver A r

/-- All the expressions of a list are over the alphabet. -/
def AreOver (A : Alphabet) : List Regex → Prop
  | [] => True
  | r :: parts => IsOver A r ∧ AreOver A parts

end

theorem areOver_iff : AreOver A l ↔ ∀ r ∈ l, IsOver A r := by
  induction l with
  | nil => simp [AreOver]
  | cons r l ih => simp [AreOver, ih]

end Regex

theorem Symbol.ofChar_mem_map {l : List Char} {c : Char} :
    Symbol.ofChar c ∈ l.map Symbol.ofChar ↔ c ∈ l :=
  List.mem_map_of_injective fun _ _ => Symbol.ofChar_injective

theorem Alphabet.ofChar_mem_symbols {A : Alphabet} {c : Char} :
    Symbol.ofChar c ∈ A.symbols ↔ c ∈ A :=
  Symbol.ofChar_mem_map

/-- An expression over an alphabet matches words over that alphabet only. -/
theorem Regex.IsOver.mem {A : Alphabet} {r : Regex} {w : List Char} (covered : r.IsOver A)
    (h : Matches A r w) {c : Char} (member : c ∈ w) : c ∈ A := by
  induction h with
  | empty | concatNil | starNil | optNone => cases member
  | any inside => exact List.mem_singleton.mp member ▸ inside
  | lit inside => exact List.mem_singleton.mp member ▸ covered _ inside
  | choice inside =>
      exact List.mem_singleton.mp member ▸ Alphabet.ofChar_mem_symbols.mp (covered _ inside)
  | concatCons _ _ first others =>
      rcases List.mem_append.mp member with left | right
      · exact first covered.1 left
      · exact others covered.2 right
  | union part _ ih => exact ih (areOver_iff.mp covered _ part) member
  | starCons _ _ once more | plus _ _ once more =>
      rcases List.mem_append.mp member with left | right
      · exact once covered left
      · exact more covered right
  | optSome _ ih => exact ih covered member

namespace Regex

mutual

/-- An expression that can be written is over an alphabet when its characters belong to it. -/
theorem isOver_iff_characters {A : Alphabet} : ∀ r : Regex, IsWritable r →
    (IsOver A r ↔ ∀ c ∈ characters r, c ∈ A)
  | .empty, _ | .null, _ | .any, _ => by simp [IsOver, characters]
  | .lit _, _ => Iff.rfl
  | .choice symbols, writable => by
      have letters : ∀ s ∈ symbols.toList, (s ∈ A.symbols ↔ ∀ c ∈ s.toList, c ∈ A) := by
        intro s member
        obtain ⟨c, _, rfl⟩ := writable s member
        simp [Symbol.ofChar, ← Alphabet.ofChar_mem_symbols]
      simp only [IsOver, characters, List.mem_flatMap, forall_exists_index, and_imp]
      exact ⟨fun all c s member inside => (letters s member).mp (all s member) c inside,
        fun all s member => (letters s member).mpr fun c => all c s member⟩
  | .concat parts, writable | .union parts, writable => areOver_iff_characters parts writable
  | .star r, writable | .plus r, writable | .opt r, writable => isOver_iff_characters r writable

theorem areOver_iff_characters {A : Alphabet} : ∀ l : List Regex, AreWritable l →
    (AreOver A l ↔ ∀ c ∈ charactersOfAll l, c ∈ A)
  | [], _ => by simp [AreOver, charactersOfAll]
  | r :: parts, writable => by
      simp only [AreOver, charactersOfAll, List.forall_mem_append,
        isOver_iff_characters r writable.1, areOver_iff_characters parts writable.2]

end

end Regex

end Automata
