import Automata.NFA.Basic
import Automata.Worklist

/-! # Running nondeterministic automata

A run keeps the set of all states that some path may have reached. Its sets are closed under
ε-moves; reading a character moves the whole set and closes it again.
-/

namespace Automata.NFA

/-- The states reached from a set of states under one label. -/
def move (n : NFA) (S : SortedSet State) (a : Symbol) : SortedSet State :=
  let edges := n.edges.labelled a
  .unions (S.toList.map fun p => edges.successors p a)

/-- The states reached from a set of states by ε-moves; states that the automaton does not have
    stay in. -/
def epsilonClosure (n : NFA) (S : SortedSet State) : SortedSet State :=
  let edges := n.edges.labelled Symbol.epsilon
  .ofList (Worklist.discover (fun p => (edges.successors p Symbol.epsilon).toList)
    (S.size + edges.size) S.toList)

/-- The closed set in which every run starts. -/
def startSet (n : NFA) : SortedSet State := n.epsilonClosure (.singleton n.start)

/-- The closed set that a set of states reaches by reading a character. -/
def advance (n : NFA) (S : SortedSet State) (c : Char) : SortedSet State :=
  n.epsilonClosure (n.move S (Symbol.ofChar c))

/-- The closed set that a set of states reaches by reading a word. -/
def advanceAll (n : NFA) (S : SortedSet State) (w : List Char) : SortedSet State :=
  w.foldl n.advance S

def isAccepting (n : NFA) (S : SortedSet State) : Bool := S.meets n.accepting

/-- Whether a word leads from the start to an accepting state. -/
def recognizes (n : NFA) (w : List Char) : Bool := n.isAccepting (n.advanceAll n.startSet w)

/-- Whether a word over the alphabet is accepted; a character from elsewhere is at fault. -/
def accepts (n : NFA) (word : String) : Except Error Bool := do
  n.alphabet.check word
  return n.recognizes word.toList

/-- The character at a position. Positions below zero count from the end of the word. -/
def charAt (w : List Char) (i : Int) : Except Error Char :=
  let j := if i < 0 then i + w.length else i
  if j < 0 then .error (.beforeBeginning i)
  else
    match w[j.toNat]? with
    | some c => .ok c
    | none => .error (.beforeBeginning i)

/-- The part of a word from a position on. A position below zero counts from the end, and one that
    lies outside means the nearest end. -/
def dropFrom (w : List Char) (i : Int) : List Char :=
  w.drop (if i < 0 then i + w.length else i).toNat

/-- Reads the characters at the positions from `i` on, as many as `count`, and lists the positions
    after which the set is accepting; an empty set ends the scan. -/
def scan (n : NFA) (w : List Char) : Nat → Int → SortedSet State → Except Error (List Int)
  | 0, _, _ => .ok []
  | count + 1, i, S => do
    let S := n.advance S (← charAt w i)
    if S.isEmpty then return []
    let ends ← n.scan w count (i + 1) S
    return if n.isAccepting S then (i + 1) :: ends else ends

/-- The positions at which an accepted part of the word that begins at `start` ends, in ascending
    order; the empty part does not count. -/
def acceptableSubstrings (n : NFA) (word : String) (start : Int) : Except Error (List Int) := do
  let w := word.toList
  n.alphabet.check (String.ofList (dropFrom w start))
  n.scan w ((w.length : Int) - start).toNat start n.startSet

end Automata.NFA
