import Automata.NFA.Basic
import Automata.Sorting

/-! # The smallest automata

Automata for the empty word, for nothing, for one word and for one character. Their states are
drawn from the allocator; an automaton of a single state draws it before it looks at the alphabet.
-/

namespace Automata.NFA

/-- An automaton that consists of a single state. -/
def single (alphabet : Except Error Alphabet) (accepts : Bool) : Building NFA := do
  let p ← Building.draw
  let A ← Building.check alphabet
  Building.check <| ofDiagram {
    states := .singleton p
    alphabet := A
    edges := ∅
    start := p
    accepting := if accepts then .singleton p else ∅ }

/-- Accepts the empty word only. -/
def forEmpty (alphabet : Except Error Alphabet) : Building NFA := single alphabet true

/-- Accepts nothing. -/
def forNull (alphabet : Except Error Alphabet) : Building NFA := single alphabet false

/-- The edges along a list of states that spell a word. -/
def chain : List State → List Char → List Edge
  | p :: q :: ps, c :: w => ⟨p, Symbol.ofChar c, q⟩ :: chain (q :: ps) w
  | _, _ => []

/-- Accepts exactly one word. -/
def forLiteral (alphabet : Alphabet) (word : String) : Building NFA := do
  Building.check (alphabet.check word)
  let first ← Building.draw
  let others ← Building.drawMany word.toList.length
  Building.check <| ofDiagram {
    states := .ofList (first :: others)
    alphabet := alphabet
    edges := .ofList (chain (first :: others) word.toList)
    start := first
    accepting := .singleton (others.getLast?.getD first) }

/-- Accepts any one of the symbols. -/
def forAnyOf (alphabet : Alphabet) (symbols : List Symbol) : Building NFA := do
  let sorted := Sorting.sort symbols
  Building.check (alphabet.check (String.join sorted))
  let (start, accept) ← Building.drawPair
  Building.check <| ofDiagram {
    states := .ofList [start, accept]
    alphabet := alphabet
    edges := .ofList (sorted.map fun a => ⟨start, a, accept⟩)
    start := start
    accepting := .singleton accept }

end Automata.NFA
