import Automata.SortedSet

/-! # States and symbols

A state is its name, and a symbol is a text: usually one character, but a stack may hold longer
ones. Both are ordered by code points.
-/

namespace Automata

/-- A state of an automaton; two states of one name are the same state. -/
structure State where
  name : String
  deriving DecidableEq, Inhabited

namespace State

instance : Ord State := ⟨fun p q => compare p.name q.name⟩

instance : Std.TransOrd State := inferInstanceAs (Std.TransCmp (compareOn State.name))

instance : Std.LawfulEqOrd State where
  eq_of_compare {p q} h := by
    have : p.name = q.name := Std.compare_eq_iff_eq.1 h
    cases p
    cases q
    exact congrArg State.mk this

/-- The earlier of two states by name. -/
def least (p q : State) : State := if compare p q = .gt then q else p

end State

/-- What an edge is labelled with and what a stack holds. -/
abbrev Symbol := String

namespace Symbol

/-- The label of a move that reads nothing. -/
def epsilon : Symbol := "ε"

/-- The marker at the bottom of a stack. -/
def bottom : Symbol := "$"

/-- The symbol that stands for one character. -/
def ofChar (c : Char) : Symbol := String.singleton c

theorem ofChar_injective {c d : Char} (h : ofChar c = ofChar d) : c = d :=
  String.singleton_inj.1 h

theorem lt_of_compare_ofChar {c d : Char} (h : compare (ofChar c) (ofChar d) = .lt) : c < d := by
  have h : ofChar c < ofChar d := compareOfLessAndEq_eq_lt.1 h
  have h : (ofChar c).toList < (ofChar d).toList := h
  simp only [ofChar, String.toList_singleton, List.cons_lt_cons_iff] at h
  exact h.resolve_right fun e => List.not_lt_nil _ e.2

end Symbol

end Automata
