import Automata.NFA.Run

/-! # Paths of nondeterministic automata

A path follows edges one by one, where a run keeps sets of states. It spells the characters on its
edges; ε-moves add nothing to the word.
-/

namespace Automata.NFA

/-- Some edges lead from one state to another, and they spell a word. -/
inductive Path (n : NFA) : State → List Char → State → Prop where
  /-- No edges lead from a state to itself. -/
  | nil {p : State} : Path n p [] p
  /-- An ε-move in front leaves the word as it is. -/
  | epsilon {p q r : State} {w : List Char} :
      ⟨p, Symbol.epsilon, q⟩ ∈ n.edges → Path n q w r → Path n p w r
  /-- Any other edge in front puts its character before the word. -/
  | cons {p q r : State} {c : Char} {w : List Char} :
      c ≠ 'ε' → ⟨p, Symbol.ofChar c, q⟩ ∈ n.edges → Path n q w r → Path n p (c :: w) r

theorem Path.append {n : NFA} {p q r : State} {u v : List Char} (h : Path n p u q)
    (k : Path n q v r) : Path n p (u ++ v) r := by
  induction h with
  | nil => exact k
  | epsilon he _ ih => exact .epsilon he (ih k)
  | cons hc he _ ih => exact .cons hc he (ih k)

/-- Some path from the start to an accepting state spells a word. -/
def HasPath (n : NFA) (w : List Char) : Prop := ∃ q, q ∈ n.accepting ∧ Path n n.start w q

/-- There are no dead ends: some path leads from every state to an accepting one. -/
def IsCoaccessible (n : NFA) : Prop :=
  ∀ p ∈ n.states, ∃ w, ∃ q ∈ n.accepting, Path n p w q

end Automata.NFA
