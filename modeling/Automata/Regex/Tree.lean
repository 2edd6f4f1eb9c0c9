import Automata.Regex.Pattern

/-! # Trees of patterns

A derivation in the grammar of patterns, as data. The tree of a pattern says how its text is taken
apart: which sequences stand between its bars, which atoms they consist of, and which quantifiers
follow each atom.
-/

namespace Automata.Regex

/-- What may follow an atom. -/
inductive Quantifier where
  | star
  | plus
  | opt
  deriving DecidableEq

namespace Quantifier

def character : Quantifier → Char
  | star => '*'
  | plus => '+'
  | opt => '?'

def apply : Quantifier → Regex → Regex
  | star => .star
  | plus => .plus
  | opt => .opt

/-- The item that an atom and the quantifiers behind it stand for: the first quantifier is the
    innermost one. -/
def applyAll (quantifiers : List Quantifier) (r : Regex) : Regex :=
  quantifiers.foldl (fun item q => q.apply item) r

end Quantifier

mutual

/-- How an atom is derived. -/
inductive AtomTree where
  | any
  | literal (c : Char) (plain : c ∉ operators)
  /-- The characters between two brackets, as they are written. -/
  | choice (cs : List Char) (inside : ']' ∉ cs)
  | group (inside : PatternTree)

/-- How a sequence is derived: atoms with quantifiers behind them. -/
inductive SequenceTree where
  | nil
  | cons (atom : AtomTree) (quantifiers : List Quantifier) (rest : SequenceTree)

/-- How an alternation is derived: sequences with bars between them. -/
inductive PatternTree where
  | one (sequence : SequenceTree)
  | more (sequence : SequenceTree) (rest : PatternTree)

end

mutual

/-- The text that is derived. -/
def AtomTree.text : AtomTree → List Char
  | .any => ['.']
  | .literal c _ => [c]
  | .choice cs _ => '[' :: cs ++ [']']
  | .group t => '(' :: t.text ++ [')']

def SequenceTree.text : SequenceTree → List Char
  | .nil => []
  | .cons a qs s => a.text ++ (qs.map Quantifier.character ++ s.text)

def PatternTree.text : PatternTree → List Char
  | .one s => s.text
  | .more s t => s.text ++ '|' :: t.text

end

mutual

/-- The expression that an atom stands for. -/
def AtomTree.regex : AtomTree → Regex
  | .any => .any
  | .literal c _ => .lit (String.singleton c)
  | .choice cs _ => .choice (.ofList (cs.map Symbol.ofChar))
  | .group t => .concat (joined t.sequences)

def SequenceTree.items : SequenceTree → List Regex
  | .nil => []
  | .cons a qs s => Quantifier.applyAll qs a.regex :: s.items

def PatternTree.sequences : PatternTree → List (List Regex)
  | .one s => [s.items]
  | .more s t => s.items :: t.sequences

end

/-- The items that a pattern stands for. -/
def PatternTree.items (t : PatternTree) : List Regex := joined t.sequences

end Automata.Regex
