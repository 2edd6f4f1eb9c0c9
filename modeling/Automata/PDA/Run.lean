import Automata.PDA.Basic

/-! # Running pushdown automata

A configuration is a state and a stack. A run keeps the set of configurations that may have been
reached, closed under as many ε-moves as the automaton's bound allows.
-/

namespace Automata

/-- A snapshot of a run. -/
structure Configuration where
  state : State
  /-- The stack, top first. -/
  stack : List Symbol
  deriving DecidableEq

namespace Configuration

/-- Configurations are ordered by state, then by their stacks from the bottom up. -/
def order : Configuration → Configuration → Ordering :=
  compareLex (compareOn state) (compareOn fun c => c.stack.reverse)

instance : Ord Configuration := ⟨order⟩

instance : Std.TransOrd Configuration :=
  inferInstanceAs (Std.TransCmp
    (compareLex (compareOn state) (compareOn fun c : Configuration => c.stack.reverse)))

instance : Std.LawfulEqOrd Configuration where
  eq_of_compare {c d} h := by
    have h : ((compare c.state d.state).then (compare c.stack.reverse d.stack.reverse)) = .eq := h
    rw [Ordering.then_eq_eq] at h
    have h₁ := Std.compare_eq_iff_eq.1 h.1
    have h₂ := Std.compare_eq_iff_eq.1 h.2
    cases c
    cases d
    simp_all

/-- The stack with one more symbol on top; pushing ε leaves it as it is. -/
def push (stack : List Symbol) (a : Symbol) : List Symbol :=
  if a = Symbol.epsilon then stack else a :: stack

def text (c : Configuration) : String :=
  let stack := String.join c.stack
  let shown := if stack = "" then Symbol.epsilon else stack
  s!"({c.state.name}, {shown})"

end Configuration

namespace PDA

/-- The configurations after the rules that do not look at the stack. -/
def stepsFree (m : PDA) (c : Configuration) (a : Symbol) : List Configuration :=
  (m.rules.freeMoves c.state a).toList.map fun r => ⟨r.target, Configuration.push c.stack r.pushed⟩

/-- The configurations after the rules that pop the top of the stack. -/
def stepsPopping (m : PDA) (c : Configuration) (a : Symbol) : List Configuration :=
  match c.stack with
  | [] => []
  | top :: rest =>
    (m.rules.moves c.state top a).toList.map fun r =>
      ⟨r.target, Configuration.push rest r.pushed⟩

/-- The configurations that one move on a symbol leads to. Staying put is always a move on ε. -/
def step (m : PDA) (c : Configuration) (a : Symbol) : SortedSet Configuration :=
  .ofList ((if a = Symbol.epsilon then [c] else []) ++ m.stepsFree c a ++ m.stepsPopping c a)

/-- The configurations that one move on a symbol leads a set to. -/
def stepAll (m : PDA) (S : SortedSet Configuration) (a : Symbol) : SortedSet Configuration :=
  .unions (S.toList.map fun c => m.step c a)

/-- Adds what the frontier leads to by ε-moves, for a number of rounds; each round goes on with
    what the one before has found. -/
def closeWithin (m : PDA) : Nat → SortedSet Configuration → SortedSet Configuration →
    SortedSet Configuration
  | 0, _, closure => closure
  | rounds + 1, frontier, closure =>
    let found := (m.stepAll frontier Symbol.epsilon).diff closure
    if found.isEmpty then closure else m.closeWithin rounds found (found.union closure)

/-- The configurations within the bounded number of ε-moves of a set. -/
def epsilonClosure (m : PDA) (S : SortedSet Configuration) : SortedSet Configuration :=
  m.closeWithin m.bound S S

/-- The configurations in which runs start. -/
def startConfigurations (m : PDA) : SortedSet Configuration :=
  m.epsilonClosure (.singleton ⟨m.start, []⟩)

/-- The configurations that a set reaches by reading a character. -/
def advance (m : PDA) (S : SortedSet Configuration) (c : Char) : SortedSet Configuration :=
  m.epsilonClosure (m.stepAll S (Symbol.ofChar c))

/-- Whether a word leads from the start to an accepting state. -/
def recognizes (m : PDA) (w : List Char) : Bool :=
  (w.foldl m.advance m.startConfigurations).toList.any fun c => decide (c.state ∈ m.accepting)

/-- Whether a word over the alphabet is accepted; a character from elsewhere is at fault. -/
def accepts (m : PDA) (word : String) : Except Error Bool := do
  m.input.check word
  return m.recognizes word.toList

end PDA

end Automata
