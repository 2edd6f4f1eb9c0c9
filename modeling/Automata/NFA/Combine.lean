import Automata.NFA.Basic

/-! # Combining automata

Concatenation, union, star and power of automata. Operands must agree on their alphabet and have
no states in common.
-/

namespace Automata

/-- Checks that neighbours in a list have the same alphabet. -/
def StateDiagram.checkAlphabets : List StateDiagram → Except Error Unit
  | d :: e :: l =>
    if d.alphabet = e.alphabet then checkAlphabets (e :: l)
    else .error (.alphabetsDiffer d.alphabet.symbols e.alphabet.symbols)
  | _ => .ok ()

/-- Checks that no diagram of a list has a state that is already seen. -/
def StateDiagram.checkDisjoint (seen : SortedSet State) : List StateDiagram → Except Error Unit
  | [] => .ok ()
  | d :: l =>
    if seen.meets d.states then .error (.sharedStates (seen.inter d.states))
    else checkDisjoint (seen.union d.states) l

/-- Checks that diagrams can be combined: one alphabet, and no state in two of them. -/
def StateDiagram.checkCompatible (l : List StateDiagram) : Except Error Unit := do
  checkAlphabets l
  checkDisjoint ∅ l

namespace NFA

def checkCompatible (l : List NFA) : Except Error Unit :=
  StateDiagram.checkCompatible (l.map NFA.toStateDiagram)

/-- ε-moves from every state of a set to one state. -/
def bridges (S : SortedSet State) (q : State) : List Edge :=
  S.toList.map fun p => ⟨p, Symbol.epsilon, q⟩

/-- The ε-moves from the accepting states of each automaton to the start of the next. -/
def links : List NFA → List Edge
  | m :: n :: l => bridges m.accepting n.start ++ links (n :: l)
  | _ => []

def allEdges (l : List NFA) : List Edge := l.flatMap fun n => n.edges.toList

def allStates (l : List NFA) : SortedSet State := .unions (l.map fun n => n.states)

/-- The automata one after the other. -/
def concatenate (l : List NFA) : Except Error NFA :=
  match l with
  | [] => .error .nothingToConcatenate
  | first :: others => do
    checkCompatible l
    ofDiagram {
      states := allStates l
      alphabet := first.alphabet
      edges := .ofList (allEdges l ++ links l)
      start := first.start
      accepting := (others.getLast?.getD first).accepting }

/-- A choice between automata: a fresh start state with an ε-move to each of their starts. -/
def union (l : List NFA) : Building NFA :=
  match l with
  | [] => Building.check (.error .nothingToUnite)
  | first :: _ => do
    Building.check (checkCompatible l)
    let start ← Building.draw
    if l.any fun n => decide (start ∈ n.states) then throw (.stateInUse start)
    Building.check <| ofDiagram {
      states := (allStates l).insert start
      alphabet := first.alphabet
      edges := .ofList (allEdges l ++ l.map fun n => ⟨start, Symbol.epsilon, n.start⟩)
      start := start
      accepting := .unions (l.map fun n => n.accepting) }

/-- Any number of repetitions: a fresh accepting start state leads into the automaton, and the
    accepting states lead back to it. -/
def star (n : NFA) : Building NFA := do
  let start ← Building.draw
  if start ∈ n.states then throw (.stateTaken start n.summary)
  Building.check <| ofDiagram { n.toStateDiagram with
    states := n.states.insert start
    edges := .ofList (n.edges.toList
      ++ ⟨start, Symbol.epsilon, n.start⟩ :: bridges n.accepting start)
    start := start
    accepting := n.accepting.insert start }

/-- Fresh copies of an automaton. -/
def copies (n : NFA) : Nat → Building (List NFA)
  | 0 => return []
  | k + 1 => return (← n.clone) :: (← copies n k)

/-- A number of repetitions, at least one. -/
def power (n : NFA) (k : Int) : Building NFA := do
  if k < 1 then throw (.exponentTooSmall k)
  Building.check (concatenate (← n.copies k.toNat))

/-- A fresh start state that nothing leads to and a fresh accepting state that nothing leaves,
    joined to the old ones by ε-moves. -/
def withSingleAccept (n : NFA) : Building NFA := do
  let (start, accept) ← Building.drawPair
  if start ∈ n.states ∨ accept ∈ n.states then throw (.bridgeTaken start accept n.summary)
  Building.check <| ofDiagram { n.toStateDiagram with
    states := (n.states.insert start).insert accept
    edges := .ofList (n.edges.toList
      ++ ⟨start, Symbol.epsilon, n.start⟩ :: bridges n.accepting accept)
    start := start
    accepting := .singleton accept }

end NFA

end Automata
