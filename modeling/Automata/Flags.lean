/-! # Flags

Settings of the conversions, given as the bits of a whole number. Numbers below zero count as two's
complement, so that minus one has every bit.
-/

namespace Automata

/-- Settings of the conversions. -/
structure Flags where
  bits : Int

namespace Flags

def bit (f : Flags) (n : Nat) : Bool := (f.bits >>> n) % 2 == 1

/-- Whether the automaton of a pattern is simplified. -/
def simplify (f : Flags) : Bool := f.bit 0

/-- Whether conversions show their progress, which changes no result. -/
def debug (f : Flags) : Bool := f.bit 2

end Flags

end Automata
