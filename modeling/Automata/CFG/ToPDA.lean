import Automata.Allocator
import Automata.CFG.Basic
import Automata.PDA.Basic

/-! # From grammars to pushdown automata

The automaton pushes the bottom marker and the start nonterminal. From then on it expands the
nonterminal on top of its stack, or matches the terminal there against the input, and it accepts
once only the bottom marker is left. An output is pushed one symbol a state, from right to left.
-/

namespace Automata.CFG

/-- Where every run starts. -/
def startState : State := ⟨"START"⟩

/-- Where nonterminals are expanded and terminals are matched. -/
def loopState : State := ⟨"LOOP"⟩

/-- Where every accepting run ends. -/
def finalState : State := ⟨"FINAL"⟩

/-- The rules that pop a symbol in a state and push the elements given, first to last, and the
    states in between. The last element leads back to the loop. -/
def pushRules (p : State) (popped : Symbol) : List Element →
    Building (List StackRule × List State)
  | [] => return ([], [])
  | [e] => return ([⟨p, popped, Symbol.epsilon, loopState, e.text⟩], [])
  | e :: es => do
    let q ← Building.draw
    let (rules, states) ← pushRules q Symbol.epsilon es
    return (⟨p, popped, Symbol.epsilon, q, e.text⟩ :: rules, q :: states)

/-- The rules that replace a nonterminal on top of the stack by one of its outputs. -/
def productionRules (head : String) (output : Form) : Building (List StackRule × List State) :=
  match output.elements with
  | [] => return ([⟨loopState, head, Symbol.epsilon, loopState, Symbol.epsilon⟩], [])
  | es => pushRules loopState head es.reverse

/-- The rules for all the productions of a list, in order, and the states in between. -/
def expansionRules : List Production → Building (List StackRule × List State)
  | [] => return ([], [])
  | p :: ps => do
    let (rules, states) ← productionRules p.head p.output
    let (rules', states') ← expansionRules ps
    return (rules ++ rules', states ++ states')

/-- How many states lie between the pushes of the outputs of a list of productions: between any two
    symbols of an output stands one. -/
def expansionCount : List Production → Nat
  | [] => 0
  | p :: ps => (p.output.elements.length - 1) + expansionCount ps

/-- How many states the automaton of a grammar takes from an allocator: those between pushes, and
    the one that is entered once the stack is marked. -/
def stateCount (c : CFG) : Nat := expansionCount c.grammar.productions.toList + 1

/-- The rule that matches a terminal on top of the stack against the input. -/
def matchRule (a : Symbol) : StackRule := ⟨loopState, a, a, loopState, Symbol.epsilon⟩

/-- The pushdown automaton of a grammar. Without a bound on ε-moves it is the number of states. -/
def toPDA (c : CFG) (bound : Option Int) : Building PDA := do
  let marked ← Building.draw
  let (rules, states) ← expansionRules c.grammar.productions.toList
  let stack ← Building.check <| StackAlphabet.ofSet <|
    .ofList (Symbol.bottom :: c.nonterminals.toList ++ c.alphabet.symbols)
  let opening : List StackRule :=
    [⟨startState, Symbol.epsilon, Symbol.epsilon, marked, Symbol.bottom⟩,
      ⟨marked, Symbol.epsilon, Symbol.epsilon, loopState, c.start⟩]
  let closing : StackRule :=
    ⟨loopState, Symbol.bottom, Symbol.epsilon, finalState, Symbol.epsilon⟩
  let diagram : StackDiagram := {
    states := .ofList (startState :: loopState :: finalState :: marked :: states)
    input := c.alphabet
    stack := stack
    rules := .ofList (opening ++ rules ++ c.alphabet.symbols.map matchRule ++ [closing])
    start := startState
    accepting := .singleton finalState }
  Building.check (PDA.ofDiagram diagram bound)

end Automata.CFG
