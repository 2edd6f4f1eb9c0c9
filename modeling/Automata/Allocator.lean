import Automata.Error
import Automata.Text.Numeral

/-! # Fresh states

An allocator names states by a stem and a counter, and passes over names that are reserved. The
counter may run out: an allocator can have a largest number, of either sign. Constructions that draw
states run in `Building`, which keeps the allocator when they fail.
-/

namespace Automata

/-- A source of fresh states: a stem, the next number, and the names to pass over. It is endless
    unless it has a largest number.

    One that starts where it is told to has a largest number (`startingAt`). One that a construction
    makes for itself is `{}`, or `{}` with a stem and reserved names. It starts at zero, and no
    memory holds as many states as it has numbers, so it is taken never to run out. -/
structure Allocator where
  /-- What every name begins with. -/
  stem : String := "q"
  /-- The number that is tried next. -/
  next : Int := 0
  /-- The states that are never handed out. -/
  reserved : SortedSet State := ∅
  /-- The largest number that a name may have, if there is one; the same with a minus sign is the
      smallest. -/
  largest : Option Int := none

namespace Allocator

/-- The allocator that starts at a given number. What has more digits than are read is not written
    either, so an allocator that starts far out runs out of numbers. It is limited wherever it
    starts, also at zero. -/
def startingAt (stem : String) (start : Int) (reserved : SortedSet State) : Allocator where
  stem := stem
  next := start
  reserved := reserved
  largest := some Text.largestNumber

/-- The state with a given number. -/
def state (a : Allocator) (i : Int) : State := ⟨a.stem ++ toString i⟩

/-- Whether a name may have a given number. -/
def allows (a : Allocator) (i : Int) : Bool := a.largest.all fun n => -n ≤ i ∧ i ≤ n

/-- The first number from `i` on whose state is not reserved, or the first that is not allowed,
    looking past `bound` numbers at most. -/
def firstFree (a : Allocator) : Nat → Int → Int
  | 0, i => i
  | bound + 1, i =>
    if a.allows i ∧ a.state i ∈ a.reserved then a.firstFree bound (i + 1) else i

/-- The next state, and the allocator after it. As many reserved names as there are can stand in
    the way, and no more. A number that is not allowed is used up all the same. -/
def take (a : Allocator) : Except Error State × Allocator :=
  let i := a.firstFree a.reserved.size a.next
  (if a.allows i then .ok (a.state i) else .error .numbersExhausted, { a with next := i + 1 })

def summary (a : Allocator) : String := s!"StateAllocator(prefix={Text.quoted a.stem})"

end Allocator

/-- A construction that draws states and may fail; the allocator survives a failure. -/
abbrev Building (α : Type) := ExceptT Error (StateM Allocator) α

namespace Building

def draw : Building State := ExceptT.mk (modifyGet Allocator.take)

def drawPair : Building (State × State) := do
  let p ← draw
  let q ← draw
  return (p, q)

def drawMany : Nat → Building (List State)
  | 0 => return []
  | n + 1 => do
    let p ← draw
    let ps ← drawMany n
    return p :: ps

/-- A result that needs no states. -/
def check {α : Type} (r : Except Error α) : Building α := ExceptT.mk (pure r)

def runFrom {α : Type} (b : Building α) (a : Allocator) : Except Error α × Allocator :=
  b.run.run a

end Building

end Automata
