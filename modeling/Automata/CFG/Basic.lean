import Automata.Alphabet
import Automata.Grammar.Rules

/-! # Context-free grammars

A context-free grammar declares its nonterminals, its alphabet and its start nonterminal, and its
productions use nothing else. The bottom marker of a stack is kept out of the alphabet.
-/

namespace Automata

/-- A context-free grammar. -/
structure CFG where
  nonterminals : SortedSet String
  /-- The characters of the words that are derived. -/
  alphabet : Alphabet
  grammar : Grammar
  /-- The nonterminal that every derivation starts from. -/
  start : String
  start_mem : start ∈ nonterminals
  nonterminal_mem : ∀ v ∈ grammar.nonterminals.toList, v ∈ nonterminals
  terminal_mem : ∀ c ∈ grammar.terminals.toList, c ∈ alphabet
  /-- The bottom marker is not in the alphabet. -/
  bottom_not_mem : Symbol.bottom ∉ alphabet.symbols

namespace CFG

/-- The grammar of its parts, if the productions use only what is declared. -/
def ofParts (nonterminals : SortedSet String) (alphabet : Alphabet) (grammar : Grammar)
    (start : String) : Except Error CFG :=
  if h₁ : start ∈ nonterminals then
    if h₂ : ∀ v ∈ grammar.nonterminals.toList, v ∈ nonterminals then
      if h₃ : grammar.terminals.toList.all fun c => decide (c ∈ alphabet) then
        if h₄ : Symbol.bottom ∈ alphabet.symbols then .error .bottomInAlphabet
        else .ok ⟨nonterminals, alphabet, grammar, start, h₁, h₂, by simpa using h₃, h₄⟩
      else
        .error (.foreignTerminals
          ((grammar.terminals.filter fun c => !decide (c ∈ alphabet)).map Symbol.ofChar)
          alphabet.symbols)
    else .error (.undeclared (grammar.nonterminals.diff nonterminals))
  else .error (.startUndeclared start)

/-- The grammar of a list of rules, with the nonterminals and characters that they use. -/
def ofRules (rules : List String) (start : String) : Except Error CFG := do
  let grammar ← Grammar.ofRules rules
  let alphabet ← Alphabet.ofSet grammar.terminals
  ofParts grammar.nonterminals alphabet grammar start

/-- The form that every derivation starts from. -/
def origin (c : CFG) : Form := ⟨[.nonterminal c.start]⟩

def text (c : CFG) : String := c.grammar.text

def summary (c : CFG) : String :=
  s!"CFG(variables={Text.quotedList c.nonterminals.toList}, alphabet={c.alphabet.text}, "
    ++ s!"start={c.start})"

end CFG

end Automata
