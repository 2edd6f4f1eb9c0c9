import Automata.Regex.Basic

/-! # The grammar of patterns

A pattern is an alternation: sequences with bars between them. A sequence is a list of items, an
item is an atom with quantifiers behind it, and an atom is a character, a choice in brackets or an
alternation in parentheses. The relations below say which expression each of these stands for.
-/

namespace Automata.Regex

/-- The characters that do not stand for themselves outside of choices. -/
def operators : List Char := ['.', '*', '+', '?', '[', ']', '(', ')', '|']

/-- The items that an alternation stands for: those of a single sequence, or one union. -/
def joined : List (List Regex) → List Regex
  | [items] => items
  | sequences => [.union (sequences.map .concat)]

mutual

/-- A text is an atom and stands for an expression. -/
inductive IsAtom : List Char → Regex → Prop where
  | any : IsAtom ['.'] .any
  /-- A character that is no operator stands for itself. -/
  | literal {c : Char} : c ∉ operators → IsAtom [c] (.lit (String.singleton c))
  /-- Brackets hold the characters of a choice. -/
  | choice {cs : List Char} :
      ']' ∉ cs → IsAtom ('[' :: cs ++ [']']) (.choice (.ofList (cs.map Symbol.ofChar)))
  | group {cs : List Char} {items : List Regex} :
      IsAlternation cs items → IsAtom ('(' :: cs ++ [')']) (.concat items)

/-- A text is an item and stands for an expression. -/
inductive IsItem : List Char → Regex → Prop where
  | atom {cs : List Char} {r : Regex} : IsAtom cs r → IsItem cs r
  | star {cs : List Char} {r : Regex} : IsItem cs r → IsItem (cs ++ ['*']) (.star r)
  | plus {cs : List Char} {r : Regex} : IsItem cs r → IsItem (cs ++ ['+']) (.plus r)
  | opt {cs : List Char} {r : Regex} : IsItem cs r → IsItem (cs ++ ['?']) (.opt r)

/-- A text is a sequence and stands for a list of items. -/
inductive IsSequence : List Char → List Regex → Prop where
  | nil : IsSequence [] []
  | cons {cs ds : List Char} {r : Regex} {items : List Regex} :
      IsItem cs r → IsSequence ds items → IsSequence (cs ++ ds) (r :: items)

/-- A text consists of sequences with bars between them. -/
inductive AreSequences : List Char → List (List Regex) → Prop where
  | one {cs : List Char} {items : List Regex} : IsSequence cs items → AreSequences cs [items]
  | more {cs ds : List Char} {items : List Regex} {sequences : List (List Regex)} :
      IsSequence cs items → AreSequences ds sequences →
        AreSequences (cs ++ '|' :: ds) (items :: sequences)

/-- A text is an alternation and stands for a list of items. -/
inductive IsAlternation : List Char → List Regex → Prop where
  | of {cs : List Char} {sequences : List (List Regex)} :
      AreSequences cs sequences → IsAlternation cs (joined sequences)

end

theorem isAlternation_nil : IsAlternation [] [] := .of (.one .nil)

end Automata.Regex
