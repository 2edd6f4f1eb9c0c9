import Automata.Grammar.Basic
import Automata.Sorting
import Automata.Text.Blank

/-! # Rules as texts

A rule is written `S -> aSb | ab | ε`: a nonterminal, an arrow, and alternatives between bars.
Blanks around the nonterminal and around the alternatives do not count; an alternative that is
empty or consists of ε is the empty form.
-/

namespace Automata.Grammar

/-- What stands before and after the first arrow. -/
def splitArrow : List Char → Option (List Char × List Char)
  | '-' :: '>' :: cs => some ([], cs)
  | c :: cs => (splitArrow cs).map fun (before, after) => (c :: before, after)
  | [] => none

/-- What stands between the bars; there is always one part more than bars. -/
def splitBars : List Char → List (List Char)
  | [] => [[]]
  | c :: cs =>
    if c = '|' then [] :: splitBars cs
    else
      match splitBars cs with
      | part :: parts => (c :: part) :: parts
      | [] => [[c]]

/-- The nonterminal that the left side of a rule names: one capital letter. -/
def headOf? (cs : List Char) : Option String :=
  match cs with
  | [c] => if 'A' ≤ c ∧ c ≤ 'Z' then some (Symbol.ofChar c) else none
  | _ => none

/-- The productions of a rule. -/
def parseRule (rule : String) : Except Error (List Production) :=
  match splitArrow rule.toList with
  | none => .error (.noArrow rule)
  | some (left, right) =>
    match headOf? (Text.trim left) with
    | none => .error (.badHead rule)
    | some head =>
      .ok ((splitBars right).map fun part => ⟨head, Form.ofChars (Text.trim part)⟩)

/-- The grammar with the productions of one more rule. -/
def addRule (g : Grammar) (rule : String) : Except Error Grammar := do
  return (← parseRule rule).foldl add g

/-- The grammar of a list of rules; the first rule that cannot be read is at fault. -/
def ofRules (rules : List String) : Except Error Grammar := rules.foldlM addRule empty

/-- How an output is written in a rule: the empty form as ε. -/
def outputText (f : Form) : String := if f.text = "" then Symbol.epsilon else f.text

/-- The texts of the outputs of a nonterminal, sorted, ε for the empty one. -/
def outputTexts (g : Grammar) (head : String) : List String :=
  Sorting.sort ((g.outputs head).toList.map outputText)

def ruleText (g : Grammar) (head : String) : String :=
  head ++ " -> " ++ " | ".intercalate (g.outputTexts head)

/-- The grammar as a text, one rule a line, for every nonterminal that has an entry. -/
def text (g : Grammar) : String := "\n".intercalate (g.heads.toList.map g.ruleText)

end Automata.Grammar
