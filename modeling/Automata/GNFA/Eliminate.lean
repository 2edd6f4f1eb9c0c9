import Automata.GNFA.Basic
import Automata.Regex.Printer

/-! # State elimination

Ripping a state out of a generalized automaton puts what its runs through that state matched on the
remaining pairs. Once all interior states are gone, the label from start to accept is an expression
for the whole automaton.
-/

namespace Automata

namespace GNFA

/-- The states other than the start and the accepting one, in order. -/
def interior (g : GNFA) : SortedSet State :=
  g.states.filter fun p => decide (p ≠ g.start ∧ p ≠ g.accept)

def checkInterior (g : GNFA) (p : State) : Except Error Unit :=
  if p ∉ g.states then .error (.notAGeneralState p)
  else if p = g.start ∨ p = g.accept then .error (.cannotRip p)
  else .ok ()

/-- The number of pairs that get a label from ripping a state. -/
def cost (g : GNFA) (p : State) : Nat := g.labels.outDegree p * g.labels.inDegree p

/-- The number of pairs that get a label from ripping a state that can be ripped. -/
def repairCost (g : GNFA) (p : State) : Except Error Nat := do
  g.checkInterior p
  return g.cost p

/-- The cheapest state of a list, the first of them if there are several. -/
def cheapest (g : GNFA) (p : State) (l : List State) : State :=
  l.foldl (fun best q => if g.cost q < g.cost best then q else best) p

/-- The interior state that is cheapest to rip, the one with the smallest name if there are
    several. -/
def lowestCostState (g : GNFA) : Option State :=
  match g.interior.toList with
  | [] => none
  | p :: l => some (g.cheapest p l)

/-- The label of a pair after its runs through a state have been added to it. -/
def bypass (g : GNFA) (p : State) (k : State × State) : Regex :=
  Regex.unionOf [g.labels.label k.1 k.2,
    Regex.concatOf [g.labels.label k.1 p, Regex.starOf (g.labels.label p p), g.labels.label p k.2]]

/-- The pairs of other states that runs through a state join. -/
def bypassed (g : GNFA) (p : State) : List (State × State) :=
  let others := (g.states.diff (.singleton p)).toList
  (others.filter fun s => !(g.labels.label s p).isNull).flatMap fun s =>
    (others.filter fun t => !(g.labels.label p t).isNull).map fun t => (s, t)

/-- The automaton without a state, whose runs go over new labels. -/
def rip (g : GNFA) (p : State) : Except Error GNFA := do
  g.checkInterior p
  ofDiagram { g.toPairDiagram with
    states := g.states.diff (.singleton p)
    labels := g.labels.without p ((g.bypassed p).map fun k => (k, g.bypass p k)) }

/-- Rips the cheapest interior state, a number of times at most. -/
def eliminate : Nat → GNFA → Except Error GNFA
  | 0, g => .ok g
  | count + 1, g =>
    match g.lowestCostState with
    | none => .ok g
    | some p => do eliminate count (← g.rip p)

/-- The expression that is left when all interior states are ripped. -/
def toRegex (g : GNFA) : Except Error Regex := do
  let last ← eliminate g.interior.size g
  return last.labels.label last.start last.accept

/-- The pattern of that expression. -/
def toPattern (g : GNFA) : Except Error String := do
  return (← g.toRegex).pattern

end GNFA

namespace NFA

/-- An expression for an automaton, by way of the generalized automaton. -/
def toRegex (n : NFA) : Building Regex := do
  Building.check (← GNFA.ofNFA n).toRegex

/-- A pattern for an automaton. -/
def toPattern (n : NFA) : Building String := do
  return (← n.toRegex).pattern

end NFA

end Automata
