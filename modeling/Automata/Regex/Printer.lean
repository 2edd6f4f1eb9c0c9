import Automata.Regex.Basic

/-! # Writing patterns

The pattern of an expression: postfix operators and concatenations put parentheses around a part
only where it would be read differently without them.
-/

namespace Automata.Regex

/-- Whether an expression is a union once concatenations of a single part are opened. -/
def isAlternation : Regex → Bool
  | .union _ => true
  | .concat [r] => r.isAlternation
  | _ => false

/-- Whether an expression is a union or a concatenation once concatenations of a single part are
    opened. -/
def isCompound : Regex → Bool
  | .union _ => true
  | .concat [r] => r.isCompound
  | .concat _ => true
  | _ => false

/-- Puts parentheses around a text if it is asked to. -/
def grouped (needed : Bool) (cs : List Char) : List Char :=
  if needed then '(' :: cs ++ [')'] else cs

mutual

def written : Regex → List Char
  | .empty => ['(', ')']
  | .null => ['[', ']']
  | .any => ['.']
  | .lit text => text.toList
  | .choice symbols => '[' :: symbols.toList.flatMap String.toList ++ [']']
  | .concat [] => ['(', ')']
  | .concat [r] => written r
  | .concat parts => writtenFactors parts
  | .union [] => ['[', ']']
  | .union (r :: parts) => written r ++ writtenAlternatives parts
  | .star r => grouped r.isCompound (written r) ++ ['*']
  | .plus r => grouped r.isCompound (written r) ++ ['+']
  | .opt r => grouped r.isCompound (written r) ++ ['?']
termination_by structural r => r

/-- The parts of a concatenation one after the other, unions in parentheses. -/
def writtenFactors : List Regex → List Char
  | [] => []
  | r :: parts => grouped r.isAlternation (written r) ++ writtenFactors parts
termination_by structural l => l

/-- The further alternatives of a union, each after a bar. -/
def writtenAlternatives : List Regex → List Char
  | [] => []
  | r :: parts => '|' :: written r ++ writtenAlternatives parts
termination_by structural l => l

end

/-- The pattern of an expression. -/
def pattern (r : Regex) : String := String.ofList r.written

end Automata.Regex
