import Automata.Edge

/-! # Stack rules

A rule of a pushdown automaton: from a state, popping a stack symbol and reading a tape symbol, to
a state, pushing a stack symbol. Popping ε leaves the stack alone whatever it holds, reading ε
leaves the tape alone, and pushing ε pushes nothing.
-/

namespace Automata

/-- A move of a pushdown automaton. -/
structure StackRule where
  source : State
  /-- The stack symbol that is popped, or ε. -/
  popped : Symbol
  /-- The tape symbol that is read, or ε. -/
  tape : Symbol
  target : State
  /-- The stack symbol that is pushed, or ε. -/
  pushed : Symbol
  deriving DecidableEq

namespace StackRule

def order : StackRule → StackRule → Ordering :=
  compareLex (compareOn source) (compareLex (compareOn popped) (compareLex (compareOn tape)
    (compareLex (compareOn target) (compareOn pushed))))

instance : Ord StackRule := ⟨order⟩

instance : Std.TransOrd StackRule :=
  inferInstanceAs (Std.TransCmp
    (compareLex (compareOn source) (compareLex (compareOn popped) (compareLex (compareOn tape)
      (compareLex (compareOn target) (compareOn pushed))))))

instance : Std.LawfulEqOrd StackRule where
  eq_of_compare {r s} h := by
    have h : ((compare r.source s.source).then ((compare r.popped s.popped).then
        ((compare r.tape s.tape).then ((compare r.target s.target).then
          (compare r.pushed s.pushed))))) = .eq := h
    simp only [Ordering.then_eq_eq] at h
    have h₁ := Std.compare_eq_iff_eq.1 h.1
    have h₂ := Std.compare_eq_iff_eq.1 h.2.1
    have h₃ := Std.compare_eq_iff_eq.1 h.2.2.1
    have h₄ := Std.compare_eq_iff_eq.1 h.2.2.2.1
    have h₅ := Std.compare_eq_iff_eq.1 h.2.2.2.2
    cases r
    cases s
    simp_all

end StackRule

/-- What a rule leads to: a state and the symbol that is pushed. -/
structure StackMove where
  target : State
  /-- The stack symbol that is pushed, or ε. -/
  pushed : Symbol
  deriving DecidableEq

namespace StackMove

def order : StackMove → StackMove → Ordering := compareLex (compareOn target) (compareOn pushed)

instance : Ord StackMove := ⟨order⟩

instance : Std.TransOrd StackMove :=
  inferInstanceAs (Std.TransCmp (compareLex (compareOn target) (compareOn pushed)))

instance : Std.LawfulEqOrd StackMove where
  eq_of_compare {r s} h := by
    have h : ((compare r.target s.target).then (compare r.pushed s.pushed)) = .eq := h
    rw [Ordering.then_eq_eq] at h
    have h₁ := Std.compare_eq_iff_eq.1 h.1
    have h₂ := Std.compare_eq_iff_eq.1 h.2
    cases r
    cases s
    simp_all

end StackMove

/-- The moves of a pushdown automaton. -/
abbrev RuleSet := SortedSet StackRule

namespace RuleSet

/-- What the rules for a state, a popped symbol and a tape symbol lead to. -/
def moves (R : RuleSet) (p : State) (popped tape : Symbol) : SortedSet StackMove :=
  .ofList ((R.toList.filter fun r =>
    decide (r.source = p ∧ r.popped = popped ∧ r.tape = tape)).map fun r => ⟨r.target, r.pushed⟩)

/-- What the rules that do not look at the stack lead to. -/
def freeMoves (R : RuleSet) (p : State) (tape : Symbol) : SortedSet StackMove :=
  R.moves p Symbol.epsilon tape

def sources (R : RuleSet) : SortedSet State := R.map StackRule.source

def targets (R : RuleSet) : SortedSet State := R.map StackRule.target

/-- The stack symbols that are popped or pushed, without ε. -/
def stackSymbols (R : RuleSet) : SortedSet Symbol :=
  ((R.map StackRule.popped).union (R.map StackRule.pushed)).diff (.singleton Symbol.epsilon)

/-- The tape symbols that are read, without ε. -/
def tapeSymbols (R : RuleSet) : SortedSet Symbol :=
  (R.map StackRule.tape).diff (.singleton Symbol.epsilon)

/-- The triples of a state, a popped symbol and a tape symbol that some rule has, each once. -/
def keys (R : RuleSet) : List (State × Symbol × Symbol) :=
  (R.toList.map fun r => (r.source, r.popped, r.tape)).eraseDups

end RuleSet

end Automata
