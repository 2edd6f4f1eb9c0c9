import Automata.Error
import Automata.Grammar.Form

/-! # Productions

A grammar lists for every nonterminal that has an entry the forms that may take its place. An
entry may be empty: it counts when grammars are compared, but derives nothing.
-/

namespace Automata

/-- A nonterminal and a form that may take its place. -/
structure Production where
  head : String
  output : Form
  deriving DecidableEq

namespace Production

def order : Production → Production → Ordering := compareLex (compareOn head) (compareOn output)

instance : Ord Production := ⟨order⟩

instance : Std.TransOrd Production :=
  inferInstanceAs (Std.TransCmp (compareLex (compareOn head) (compareOn output)))

instance : Std.LawfulEqOrd Production where
  eq_of_compare {p q} h := by
    have h : ((compare p.head q.head).then (compare p.output q.output)) = .eq := h
    rw [Ordering.then_eq_eq] at h
    have h₁ := Std.compare_eq_iff_eq.1 h.1
    have h₂ := Std.compare_eq_iff_eq.1 h.2
    cases p
    cases q
    simp_all

end Production

/-- The productions of a grammar. -/
structure Grammar where
  /-- The nonterminals that have an entry. -/
  heads : SortedSet String
  productions : SortedSet Production
  /-- A production belongs to an entry. -/
  head_mem : ∀ p ∈ productions.toList, p.head ∈ heads
  deriving DecidableEq

namespace Grammar

def empty : Grammar := ⟨∅, ∅, fun _ h => absurd h List.not_mem_nil⟩

instance : Inhabited Grammar := ⟨empty⟩

/-- The grammar with an entry for a nonterminal, which may stay empty. -/
def touch (g : Grammar) (head : String) : Grammar where
  heads := g.heads.insert head
  productions := g.productions
  head_mem p hp := SortedSet.mem_insert.2 (.inr (g.head_mem p hp))

def add (g : Grammar) (p : Production) : Grammar where
  heads := g.heads.insert p.head
  productions := g.productions.insert p
  head_mem q hq := by
    rcases SortedSet.mem_insert.1 hq with rfl | hq
    · exact SortedSet.mem_insert.2 (.inl rfl)
    · exact SortedSet.mem_insert.2 (.inr (g.head_mem q hq))

/-- The forms that may take the place of a nonterminal. -/
def outputs (g : Grammar) (head : String) : SortedSet Form :=
  .ofList ((g.productions.toList.filter fun p => decide (p.head = head)).map Production.output)

/-- The forms that expanding the nonterminal at a position leads to. -/
def expandAt (g : Grammar) (f : Form) (i : Nat) : SortedSet Form :=
  match f.nonterminalAt? i with
  | some name => (g.outputs name).map (f.replace i)
  | none => ∅

/-- The forms that expanding any nonterminal leads to. -/
def expand (g : Grammar) (f : Form) : SortedSet Form :=
  .unions ((List.range f.elements.length).map (g.expandAt f))

/-- The forms that expanding at a position leads to; outside of the form there are none. -/
def expandAtInt (g : Grammar) (f : Form) (i : Int) : SortedSet Form :=
  if 0 ≤ i then g.expandAt f i.toNat else ∅

def nonterminals (g : Grammar) : SortedSet String :=
  g.heads.union (.ofList (g.productions.toList.flatMap fun p => p.output.nonterminals))

def terminals (g : Grammar) : SortedSet Char :=
  .ofList (g.productions.toList.flatMap fun p => p.output.terminals)

end Grammar

end Automata
