import Automata.Regex.Pattern

/-! # The characters of an expression

Which characters an expression mentions in its literals and choices, wherever they stand, and
which expressions can be written as patterns: their characters have to be ones that a pattern can
mention in their places.
-/

namespace Automata.Regex

mutual

/-- The characters of the literals and choices of an expression, from left to right. -/
def characters : Regex → List Char
  | .empty | .null | .any => []
  | .lit text => text.toList
  | .choice symbols => symbols.toList.flatMap String.toList
  | .concat parts | .union parts => charactersOfAll parts
  | .star r | .plus r | .opt r => characters r

def charactersOfAll : List Regex → List Char
  | [] => []
  | r :: parts => characters r ++ charactersOfAll parts

end

mutual

/-- Literals are single characters that are no operators, and choices consist of single characters
    other than the closing bracket. -/
def IsWritable : Regex → Prop
  | .empty | .null | .any => True
  | .lit text => ∃ c, c ∉ operators ∧ text = String.singleton c
  | .choice symbols => ∀ a ∈ symbols.toList, ∃ c, c ≠ ']' ∧ a = Symbol.ofChar c
  | .concat parts | .union parts => AreWritable parts
  | .star r | .plus r | .opt r => IsWritable r

def AreWritable : List Regex → Prop
  | [] => True
  | r :: parts => IsWritable r ∧ AreWritable parts

end

theorem mem_charactersOfAll {c : Char} {l : List Regex} :
    c ∈ charactersOfAll l ↔ ∃ r ∈ l, c ∈ characters r := by
  induction l with
  | nil => simp [charactersOfAll]
  | cons r l ih => simp [charactersOfAll, ih]

theorem areWritable_iff {l : List Regex} : AreWritable l ↔ ∀ r ∈ l, IsWritable r := by
  induction l with
  | nil => simp [AreWritable]
  | cons r l ih => simp [AreWritable, ih]

end Automata.Regex
