import Automata.State

/-! # Sentential forms

A form is a list of nonterminals and terminals. In a text, the capital letters from A to Z are
nonterminals, ε stands for nothing, and every other character is a terminal.
-/

namespace Automata

/-- What a sentential form consists of. -/
inductive Element where
  /-- A nonterminal that productions expand. -/
  | nonterminal (name : String)
  /-- A character of the word that is derived. -/
  | terminal (character : Char)
  deriving DecidableEq

namespace Element

def text : Element → String
  | nonterminal name => name
  | terminal c => Symbol.ofChar c

def isTerminal : Element → Bool
  | nonterminal _ => false
  | terminal _ => true

/-- Nonterminals come before terminals; elements of one kind are ordered by their text. -/
def order : Element → Element → Ordering := compareLex (compareOn isTerminal) (compareOn text)

instance : Ord Element := ⟨order⟩

instance : Std.TransOrd Element :=
  inferInstanceAs (Std.TransCmp (compareLex (compareOn isTerminal) (compareOn text)))

instance : Std.LawfulEqOrd Element where
  eq_of_compare {a b} h := by
    have h : ((compare a.isTerminal b.isTerminal).then (compare a.text b.text)) = .eq := h
    rw [Ordering.then_eq_eq] at h
    have h₁ := Std.compare_eq_iff_eq.1 h.1
    have h₂ := Std.compare_eq_iff_eq.1 h.2
    match a, b with
    | nonterminal _, nonterminal _ => exact congrArg nonterminal h₂
    | terminal _, terminal _ => exact congrArg terminal (Symbol.ofChar_injective h₂)
    | nonterminal _, terminal _ => simp [isTerminal] at h₁
    | terminal _, nonterminal _ => simp [isTerminal] at h₁

/-- What a character of a text stands for. -/
def ofChar? (c : Char) : Option Element :=
  if c = 'ε' then none
  else if 'A' ≤ c ∧ c ≤ 'Z' then some (nonterminal (Symbol.ofChar c))
  else some (terminal c)

end Element

/-- A string of nonterminals and terminals. -/
structure Form where
  /-- The elements from left to right. -/
  elements : List Element
  deriving DecidableEq

namespace Form

/-- Shorter forms come first; forms of one length are ordered element by element. -/
def order : Form → Form → Ordering :=
  compareLex (compareOn fun f => f.elements.length) (compareOn elements)

instance : Ord Form := ⟨order⟩

instance : Std.TransOrd Form :=
  inferInstanceAs (Std.TransCmp
    (compareLex (compareOn fun f : Form => f.elements.length) (compareOn elements)))

instance : Std.LawfulEqOrd Form where
  eq_of_compare {f g} h := by
    have h : ((compare f.elements.length g.elements.length).then
        (compare f.elements g.elements)) = .eq := h
    rw [Ordering.then_eq_eq] at h
    have := Std.compare_eq_iff_eq.1 h.2
    cases f
    cases g
    simp_all

def ofChars (cs : List Char) : Form := ⟨cs.filterMap Element.ofChar?⟩

def ofString (s : String) : Form := ofChars s.toList

def text (f : Form) : String := String.join (f.elements.map Element.text)

/-- Whether a form holds no nonterminals. -/
def isComplete (f : Form) : Bool := f.elements.all Element.isTerminal

/-- The position of the leftmost nonterminal. -/
def firstNonterminal? (f : Form) : Option Nat :=
  f.elements.findIdx? fun e => !e.isTerminal

def nonterminals (f : Form) : List String :=
  f.elements.filterMap fun
    | .nonterminal name => some name
    | .terminal _ => none

def terminals (f : Form) : List Char :=
  f.elements.filterMap fun
    | .nonterminal _ => none
    | .terminal c => some c

/-- How many elements come before a position. A position below zero counts from the end, and one
    outside of the form means the nearest end. -/
def clamp (f : Form) (i : Int) : Nat :=
  min (if i < 0 then i + f.elements.length else i).toNat f.elements.length

/-- The elements before a position, an output, and the elements from the next position on. -/
def replace (f : Form) (i : Int) (output : Form) : Form :=
  ⟨f.elements.take (f.clamp i) ++ output.elements ++ f.elements.drop (f.clamp (i + 1))⟩

/-- The nonterminal at a position, if there is one. -/
def nonterminalAt? (f : Form) (i : Nat) : Option String :=
  match f.elements[i]? with
  | some (.nonterminal name) => some name
  | _ => none

end Form

end Automata
