import Automata.Alphabet
import Automata.PDA.Rule
import Automata.Sorting

/-! # Pushdown automata

A pushdown automaton moves by stack rules and accepts by its final state. It follows a bounded
number of ε-moves at a time, so a bound that is too small makes it accept fewer words.
-/

namespace Automata

/-- States and stack rules over an input and a stack alphabet. -/
structure StackDiagram where
  states : SortedSet State
  input : Alphabet
  /-- The symbols that the stack may hold. -/
  stack : StackAlphabet
  rules : RuleSet
  start : State
  accepting : SortedSet State

namespace StackDiagram

/-- Everything that a diagram mentions is one of its states or symbols. -/
structure Closed (d : StackDiagram) : Prop where
  start_mem : d.start ∈ d.states
  accepting_mem : ∀ p ∈ d.accepting.toList, p ∈ d.states
  source_mem : ∀ r ∈ d.rules.toList, r.source ∈ d.states
  target_mem : ∀ r ∈ d.rules.toList, r.target ∈ d.states
  /-- Rules read characters of the alphabet. -/
  tape_mem : ∀ a ∈ d.rules.tapeSymbols.toList, a ∈ d.input.symbols
  /-- Rules pop and push stack symbols. -/
  stack_mem : ∀ a ∈ d.rules.stackSymbols.toList, a ∈ d.stack.symbols

/-- Checks that a diagram is closed: first the states, then the symbols. -/
def checkClosed (d : StackDiagram) : Except Error (PLift d.Closed) :=
  if h₁ : d.start ∈ d.states then
    if h₂ : d.accepting ⊆ d.states then
      if h₃ : d.rules.sources ⊆ d.states then
        if h₄ : d.rules.targets ⊆ d.states then
          if h₅ : ∀ a ∈ d.rules.tapeSymbols.toList, a ∈ d.input.symbols then
            if h₆ : d.rules.stackSymbols ⊆ d.stack.symbols then
              .ok ⟨⟨h₁, h₂, SortedSet.forall_of_map_subset h₃, SortedSet.forall_of_map_subset h₄,
                h₅, h₆⟩⟩
            else
              .error (.foreignStack (d.rules.stackSymbols.diff d.stack.symbols)
                d.stack.symbols.toList)
          else
            .error (.foreignReads
              (d.rules.tapeSymbols.filter fun a => decide (a ∉ d.input.symbols)) d.input.symbols)
        else .error (.foreignTargets (d.rules.targets.diff d.states))
      else .error (.foreignSources (d.rules.sources.diff d.states))
    else .error (.acceptingMissing (d.accepting.diff d.states))
  else .error (.startMissing d.start)

end StackDiagram

/-- A nondeterministic pushdown automaton. -/
structure PDA extends StackDiagram where
  closed : toStackDiagram.Closed
  /-- How many ε-moves are followed between two characters. -/
  bound : Nat

namespace PDA

/-- The automaton of a diagram, if it is closed and the bound is not below zero. Without a bound
    it is the number of states. -/
def ofDiagram (d : StackDiagram) (bound : Option Int) : Except Error PDA := do
  let ⟨closed⟩ ← d.checkClosed
  match bound with
  | none => return ⟨d, closed, d.states.size⟩
  | some k => if k < 0 then throw (.negativeBound k) else return ⟨d, closed, k.toNat⟩

def summary (m : PDA) : String :=
  s!"PDA(states={m.states.size}, input_alphabet={m.input.text}, "
    ++ s!"stack_alphabet={m.stack.text}, start={m.start.name})"

/-- A state, a tape symbol and a popped symbol: what the lines of a description are sorted by. -/
abbrev MoveKey := State × Symbol × Symbol

/-- One line of a description: what a state, a tape symbol and a popped symbol lead to. -/
def describeKey (m : PDA) (k : MoveKey) : String :=
  let results :=
    (m.rules.moves k.1 k.2.2 k.2.1).toList.map fun r => s!"({r.target.name}, {r.pushed})"
  let sorted := Sorting.sort results
  s!"    δ({k.1.name}, {k.2.1}, {k.2.2}) -> {Text.braced sorted}"

/-- The automaton as a formal tuple, one component after the other. -/
def describe (m : PDA) : String :=
  let keys : List MoveKey := (m.rules.toList.map fun r => (r.source, r.tape, r.popped)).eraseDups
  let sorted := Sorting.sortBy
    (compareLex (compareOn fun k => k.1)
      (compareLex (compareOn fun k => k.2.1) (compareOn fun k => k.2.2))) keys
  let states := Text.braced (m.states.toList.map State.name)
  let accepting := Text.braced (m.accepting.toList.map State.name)
  "\n".intercalate <|
    [s!"Q = {states}", s!"Σ = {m.input.text}", s!"Γ = {m.stack.text}", "δ ="]
      ++ sorted.map m.describeKey
      ++ [s!"q0 = {m.start.name}", s!"F = {accepting}"]

end PDA

end Automata
