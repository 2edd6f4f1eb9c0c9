import Automata.CFG.Basic

/-! # Listing the words of a grammar

Words are found by expanding the leftmost nonterminal of the least pending form: the shortest one,
and among forms of one length the least element by element. No form is pending twice.
-/

namespace Automata

/-- The state of a listing. -/
structure Sampler where
  /-- The forms that are still to be looked at. -/
  pending : SortedSet Form
  /-- The forms that have ever been pending. -/
  seen : SortedSet Form
  /-- The words found, latest first. -/
  found : List String

namespace Sampler

/-- Only the origin is pending. -/
def ofOrigin (origin : Form) : Sampler := ⟨.singleton origin, .singleton origin, []⟩

/-- Looks at the least pending form: a complete one is a word, and of any other the forms that
    expanding its leftmost nonterminal leads to become pending unless they were before. -/
def step (g : Grammar) (s : Sampler) : Sampler :=
  match s.pending.toList with
  | [] => s
  | f :: _ =>
    match f.firstNonterminal? with
    | none => { s with pending := s.pending.rest, found := f.text :: s.found }
    | some i =>
      let fresh := (g.expandAt f i).diff s.seen
      { s with pending := fresh.union s.pending.rest, seen := fresh.union s.seen }

/-- Whether nothing is pending or as many words as wanted are found. -/
def isDone (limit : Option Nat) (s : Sampler) : Bool :=
  s.pending.isEmpty || limit.any fun n => decide (n ≤ s.found.length)

/-- Looks at pending forms until the listing is done, at a number of them at most. -/
def run (g : Grammar) (limit : Option Nat) : Nat → Sampler → Sampler
  | 0, s => s
  | pops + 1, s => if s.isDone limit then s else run g limit pops (s.step g)

end Sampler

namespace CFG

/-- The first words of the language in the order of the listing, after at most a number of looks
    at pending forms. -/
def sampleWithin (c : CFG) (limit : Option Nat) (pops : Nat) : List String :=
  (Sampler.run c.grammar limit pops (.ofOrigin c.origin)).found.reverse

/-- How many pending forms a listing looks at before it gives up. -/
def patience : Nat := 4611686018427387904

/-- The largest number of words that can be asked for. -/
def largestLimit : Int := 9223372036854775807

/-- The first words of the language, as many as the limit says, or all of them. -/
def sample (c : CFG) (limit : Option Int) : Except Error (List String) :=
  match limit with
  | none => .ok (c.sampleWithin none patience)
  | some n =>
    if n < 0 ∨ largestLimit < n then .error (.badLimit n)
    else .ok (c.sampleWithin (some n.toNat) patience)

end CFG

end Automata
