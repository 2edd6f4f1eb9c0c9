import Automata.StateDiagram
import Automata.Allocator
import Automata.NFA.Basic

/-! # Deterministic automata

A deterministic automaton has exactly one move for every state and every character of its alphabet.
`DFA.ofDiagram` is the only way in, so every automaton has passed its checks.
-/

namespace Automata

/-- A state diagram whose moves are a table. -/
structure MoveDiagram where
  states : SortedSet State
  alphabet : Alphabet
  moves : MoveTable
  start : State
  accepting : SortedSet State

namespace MoveDiagram

/-- The diagram with its moves as edges. -/
def diagram (d : MoveDiagram) : StateDiagram where
  states := d.states
  alphabet := d.alphabet
  edges := d.moves.edgeSet
  start := d.start
  accepting := d.accepting

/-- The first state and character, in order, for which there is no move. -/
def undefinedMove? (d : MoveDiagram) : Option (State × Char) :=
  (d.states.toList.flatMap fun p => d.alphabet.characters.toList.map fun c => (p, c)).find?
    fun k => (d.moves.get? (k.1, Symbol.ofChar k.2)).isNone

end MoveDiagram

/-- A deterministic finite automaton. -/
structure DFA extends MoveDiagram where
  closed : toMoveDiagram.diagram.Closed
  /-- Labels are characters of the alphabet. -/
  label_mem : ∀ a ∈ moves.labels.toList, a ∈ alphabet.symbols
  /-- There is a move for every state and character. -/
  total : toMoveDiagram.undefinedMove? = none

namespace DFA

/-- The automaton of a diagram, if it is closed, its labels belong to its alphabet and no move is
    missing. -/
def ofDiagram (d : MoveDiagram) : Except Error DFA := do
  let ⟨closed⟩ ← d.diagram.checkClosed
  if label_mem : ∀ a ∈ d.moves.labels.toList, a ∈ d.alphabet.symbols then
    match total : d.undefinedMove? with
    | none => return ⟨d, closed, label_mem, total⟩
    | some (p, c) => throw (.undefinedMove p c)
  else
    throw (.foreignLabels (d.moves.labels.filter fun a => decide (a ∉ d.alphabet.symbols))
      d.alphabet.symbols)

def summary (d : DFA) : String := d.diagram.summary "DFA"

/-- The state after reading a character, if there is a move for it. -/
def next (d : DFA) (p : State) (c : Char) : Option State := d.moves.get? (p, Symbol.ofChar c)

def run (d : DFA) (p : State) (w : List Char) : Option State := w.foldlM d.next p

/-- Whether a word leads from a state to an accepting state. -/
def recognizesFrom (d : DFA) (p : State) (w : List Char) : Bool :=
  (d.run p w).any fun q => decide (q ∈ d.accepting)

/-- Whether a word leads from the start to an accepting state. -/
def recognizes (d : DFA) (w : List Char) : Bool := d.recognizesFrom d.start w

/-- Whether a word over the alphabet is accepted; a character from elsewhere is at fault. -/
def accepts (d : DFA) (word : String) : Except Error Bool := do
  d.alphabet.check word
  return d.recognizes word.toList

/-- The states that a state leads to, character by character. -/
def successors (d : DFA) (p : State) : List State :=
  d.alphabet.characters.toList.filterMap (d.next p)

/-- The same automaton with every state replaced by a fresh one. -/
def clone (d : DFA) : Building DFA := do
  let m ← NFA.drawRenaming d.states
  Building.check do
    ofDiagram {
      states := .ofList m.values
      alphabet := d.alphabet
      moves := ← d.moves.relabel m
      start := ← m.apply d.start
      accepting := .ofList (← d.accepting.toList.mapM m.apply) }

/-- The automaton as a nondeterministic one. -/
def toNFA (d : DFA) : Except Error NFA := NFA.ofDiagram d.diagram

end DFA

end Automata
