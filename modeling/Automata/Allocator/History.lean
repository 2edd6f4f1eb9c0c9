import Automata.Allocator

/-! # Histories of allocators

An allocator is asked for states again and again, and goes on after an answer that is an error. What
it should hand out are the states of all the free numbers, in order. How it looks for the next one
is described without a bound on how far it looks.
-/

namespace Automata

/-- What an allocator may be asked for: a state, or the two ends of a fragment. -/
inductive Request where
  | single
  | pair

namespace Request

/-- How many states are asked for. -/
def size : Request → Nat
  | single => 1
  | pair => 2

def draw : Request → Building (List State)
  | single => do return [← Building.draw]
  | pair => do
    let (p, q) ← Building.drawPair
    return [p, q]

/-- An answer to a request has as many states as it asks for, or the numbers have run out. -/
def IsAnswer (r : Request) (answer : Except Error (List State)) : Prop :=
  (∃ ps, answer = .ok ps ∧ ps.length = r.size) ∨ answer = .error .numbersExhausted

end Request

namespace Allocator

/-- The answers to requests that are made one after the other, and the allocator after them. -/
def answerAll (a : Allocator) : List Request → List (Except Error (List State)) × Allocator
  | [] => ([], a)
  | r :: requests =>
    let (answer, b) := r.draw.runFrom a
    let (answers, c) := b.answerAll requests
    (answer :: answers, c)

/-- All the states that are handed out in a list of answers. -/
def handedOut (answers : List (Except Error (List State))) : List State :=
  answers.flatMap fun answer => answer.toOption.getD []

/-- The numbers below a bound that an allocator has still to hand out: those that are allowed and
    whose states are not reserved. -/
def freeBelow (a : Allocator) (bound : Int) : List Int :=
  ((List.range (bound - a.next).toNat).map fun k : Nat => a.next + k).filter fun i =>
    a.allows i ∧ a.state i ∉ a.reserved

/-- Looking at one number after the other: those whose states are reserved are passed, and the
    first one that is free or not allowed ends the search. -/
inductive Search (a : Allocator) : Int → Int → Prop where
  | stop {i : Int} : ¬ (a.allows i = true ∧ a.state i ∈ a.reserved) → Search a i i
  | pass {i j : Int} :
      a.allows i = true → a.state i ∈ a.reserved → Search a (i + 1) j → Search a i j

end Allocator

end Automata
