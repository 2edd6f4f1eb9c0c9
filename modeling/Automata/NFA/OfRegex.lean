import Automata.NFA.Combine
import Automata.NFA.Fragment
import Automata.NFA.Simplify
import Automata.Regex.Reader

/-! # From expressions to automata

Every constructor of expressions has its construction on automata; the states of all parts come
from one allocator, so that parts never share any.
-/

namespace Automata.NFA

mutual

/-- The automaton of an expression. -/
def ofRegex (A : Alphabet) : Regex → Building NFA
  | .empty => forEmpty (.ok A)
  | .null => forNull (.ok A)
  | .any => forAnyOf A A.symbols
  | .lit text => forAnyOf A (text.toList.map Symbol.ofChar)
  | .choice symbols => forAnyOf A symbols.toList
  | .concat [] => forEmpty (.ok A)
  | .concat (r :: parts) => do
    let first ← ofRegex A r
    ofFactors A first parts
  | .union [] => forNull (.ok A)
  | .union (r :: parts) => do
    let first ← ofRegex A r
    union (first :: (← ofAlternatives A parts))
  | .star r => do
    star (← ofRegex A r)
  | .plus r => do
    let once ← ofRegex A r
    let first ← once.clone
    let rest ← star once
    Building.check (concatenate [first, rest])
  | .opt r => do
    let none ← forEmpty (.ok A)
    union [none, ← ofRegex A r]

/-- An automaton followed by those of further parts, joined one by one. -/
def ofFactors (A : Alphabet) (front : NFA) : List Regex → Building NFA
  | [] => return front
  | r :: parts => do
    let next ← ofRegex A r
    let joined ← Building.check (concatenate [front, next])
    ofFactors A joined parts

def ofAlternatives (A : Alphabet) : List Regex → Building (List NFA)
  | [] => return []
  | r :: parts => do
    let n ← ofRegex A r
    return n :: (← ofAlternatives A parts)

end

/-- The automaton of a pattern, on request without its redundant states. -/
def compile (A : Alphabet) (pattern : String) (simplified : Bool) : Building NFA := do
  let n ← ofRegex A (← Building.check (Regex.parse pattern))
  if simplified then Building.check n.simplify else return n

end Automata.NFA
