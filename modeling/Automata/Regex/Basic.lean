import Automata.State

/-! # Regular expressions

The closed family of expressions that patterns are read into and that state elimination builds.
Lists may be empty or hold one element; nothing is simplified unless a constructor of
`Automata.Regex.Simplified` is used.
-/

namespace Automata

/-- A regular expression. -/
inductive Regex where
  /-- Matches the empty word only. -/
  | empty
  /-- Matches nothing. -/
  | null
  /-- Matches any one character of the alphabet. -/
  | any
  /-- Matches any one character of the text; patterns give texts of one character. -/
  | lit (text : String)
  /-- Matches any one of the symbols. -/
  | choice (symbols : SortedSet Symbol)
  /-- Matches what the parts match, one after the other. -/
  | concat (parts : List Regex)
  /-- Matches what some part matches. -/
  | union (parts : List Regex)
  /-- Matches any number of repetitions. -/
  | star (body : Regex)
  /-- Matches one repetition or more. -/
  | plus (body : Regex)
  /-- Matches one repetition or none. -/
  | opt (body : Regex)
  deriving Inhabited

namespace Regex

mutual

/-- Whether two expressions are written alike. -/
def alike : Regex → Regex → Bool
  | .empty, .empty => true
  | .null, .null => true
  | .any, .any => true
  | .lit s, .lit t => decide (s = t)
  | .choice s, .choice t => decide (s = t)
  | .concat l, .concat m => alikeList l m
  | .union l, .union m => alikeList l m
  | .star r, .star s => alike r s
  | .plus r, .plus s => alike r s
  | .opt r, .opt s => alike r s
  | _, _ => false

def alikeList : List Regex → List Regex → Bool
  | [], [] => true
  | r :: l, s :: m => alike r s && alikeList l m
  | _, _ => false

end

mutual

theorem alike_refl : ∀ r : Regex, alike r r = true
  | .empty | .null | .any => rfl
  | .lit _ | .choice _ => by simp [alike]
  | .concat l | .union l => by simpa [alike] using alikeList_refl l
  | .star r | .plus r | .opt r => by simpa [alike] using alike_refl r

theorem alikeList_refl : ∀ l : List Regex, alikeList l l = true
  | [] => rfl
  | r :: l => by simp [alikeList, alike_refl r, alikeList_refl l]

end

mutual

theorem eq_of_alike : ∀ {r s : Regex}, alike r s = true → r = s
  | .empty, s, h | .null, s, h | .any, s, h => by cases s <;> simp_all [alike]
  | .lit _, s, h | .choice _, s, h => by cases s <;> simp_all [alike]
  | .concat l, s, h => by
    cases s with
    | concat m => exact congrArg concat (eq_of_alikeList (by simpa [alike] using h))
    | _ => simp [alike] at h
  | .union l, s, h => by
    cases s with
    | union m => exact congrArg union (eq_of_alikeList (by simpa [alike] using h))
    | _ => simp [alike] at h
  | .star r, s, h => by
    cases s with
    | star t => exact congrArg star (eq_of_alike (by simpa [alike] using h))
    | _ => simp [alike] at h
  | .plus r, s, h => by
    cases s with
    | plus t => exact congrArg plus (eq_of_alike (by simpa [alike] using h))
    | _ => simp [alike] at h
  | .opt r, s, h => by
    cases s with
    | opt t => exact congrArg opt (eq_of_alike (by simpa [alike] using h))
    | _ => simp [alike] at h

theorem eq_of_alikeList : ∀ {l m : List Regex}, alikeList l m = true → l = m
  | [], m, h => by cases m <;> simp_all [alikeList]
  | r :: l, m, h => by
    cases m with
    | nil => simp [alikeList] at h
    | cons s m =>
      rw [alikeList, Bool.and_eq_true] at h
      rw [eq_of_alike h.1, eq_of_alikeList h.2]

end

instance : DecidableEq Regex := fun r s =>
  decidable_of_iff (alike r s = true) ⟨eq_of_alike, fun h => h ▸ alike_refl r⟩

/-- Whether the expression is the one that matches nothing. -/
def isNull : Regex → Bool
  | .null => true
  | _ => false

@[simp] theorem isNull_iff {r : Regex} : r.isNull = true ↔ r = .null := by
  cases r <;> simp [isNull]

end Regex

end Automata
