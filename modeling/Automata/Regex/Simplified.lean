import Automata.Regex.Basic

/-! # Simplifying constructors

Concatenation, union and star that apply the laws of the empty and the null expression, flatten
one level of nesting and drop repeated alternatives.
-/

namespace Automata.Regex

/-- What a part contributes to a flattened concatenation. -/
def factors : Regex → List Regex
  | .empty => []
  | .concat parts => parts
  | r => [r]

/-- What a part contributes to a flattened union. -/
def alternatives : Regex → List Regex
  | .null => []
  | .union parts => parts
  | r => [r]

/-- The elements of a list that are not among those before them. -/
def distinct (known : List Regex) : List Regex → List Regex
  | [] => []
  | r :: l => if r ∈ known then distinct known l else r :: distinct (r :: known) l

/-- The concatenation of a list without empty parts and with nested concatenations flattened; a
    null part makes it null. -/
def concatOf (l : List Regex) : Regex :=
  if l.any isNull then .null
  else
    match l.flatMap factors with
    | [] => .empty
    | [r] => r
    | parts => .concat parts

/-- The union of a list without null parts and repetitions and with nested unions flattened. -/
def unionOf (l : List Regex) : Regex :=
  match distinct [] (l.flatMap alternatives) with
  | [] => .null
  | [r] => r
  | parts => .union parts

/-- The star of an expression; a star is left as it is, and nothing repeated is the empty word. -/
def starOf : Regex → Regex
  | .empty => .empty
  | .null => .empty
  | .star r => .star r
  | r => .star r

end Automata.Regex
