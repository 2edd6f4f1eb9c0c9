import Automata.Alphabet
import Automata.Regex.Basic

/-! # The language of an expression

`Matches A r w` says that `r` matches the word `w`, by the usual rules. The alphabet `A` only
matters for the expression that matches any character.
-/

namespace Automata.Regex

/-- The words that an expression matches over an alphabet. -/
inductive Matches (A : Alphabet) : Regex → List Char → Prop where
  | empty : Matches A .empty []
  | any {c : Char} : c ∈ A → Matches A .any [c]
  /-- A literal matches its characters, each alone. -/
  | lit {text : String} {c : Char} : c ∈ text.toList → Matches A (.lit text) [c]
  /-- A choice matches its symbols of one character. -/
  | choice {symbols : SortedSet Symbol} {c : Char} :
      Symbol.ofChar c ∈ symbols → Matches A (.choice symbols) [c]
  /-- No parts match the empty word. -/
  | concatNil : Matches A (.concat []) []
  /-- The first part matches first, then the others. -/
  | concatCons {r : Regex} {parts : List Regex} {u v : List Char} :
      Matches A r u → Matches A (.concat parts) v → Matches A (.concat (r :: parts)) (u ++ v)
  | union {r : Regex} {parts : List Regex} {w : List Char} :
      r ∈ parts → Matches A r w → Matches A (.union parts) w
  | starNil {r : Regex} : Matches A (.star r) []
  /-- A star matches one repetition and then more of them. -/
  | starCons {r : Regex} {u v : List Char} :
      Matches A r u → Matches A (.star r) v → Matches A (.star r) (u ++ v)
  /-- A plus matches one repetition and then what a star matches. -/
  | plus {r : Regex} {u v : List Char} :
      Matches A r u → Matches A (.star r) v → Matches A (.plus r) (u ++ v)
  | optNone {r : Regex} : Matches A (.opt r) []
  | optSome {r : Regex} {w : List Char} : Matches A r w → Matches A (.opt r) w

end Automata.Regex
