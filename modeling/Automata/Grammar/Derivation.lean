import Automata.CFG.Basic

/-! # Derivations

A form derives another one by expanding any nonterminal at each step. The language of a grammar
are the words that its start nonterminal derives.
-/

namespace Automata

/-- Some expansions, one after the other, lead from one form to another. -/
inductive Grammar.Derives (g : Grammar) : Form → Form → Prop where
  /-- No expansion leaves a form as it is. -/
  | refl {f : Form} : Derives g f f
  /-- An expansion in front. -/
  | step {f h k : Form} : h ∈ g.expand f → Derives g h k → Derives g f k

namespace Grammar.Derives

variable {g : Grammar} {f h k : Form}

theorem trans (hf : Derives g f h) (hk : Derives g h k) : Derives g f k := by
  induction hf with
  | refl => exact hk
  | step hr _ ih => exact .step hr (ih hk)

theorem single (h : k ∈ g.expand f) : Derives g f k := .step h .refl

end Grammar.Derives

/-- The complete form that spells a word. -/
def Form.ofWord (w : List Char) : Form := ⟨w.map .terminal⟩

@[simp] theorem Form.isComplete_ofWord (w : List Char) : (Form.ofWord w).isComplete = true := by
  simp [ofWord, isComplete, Element.isTerminal]

@[simp] theorem Form.terminals_ofWord (w : List Char) : (Form.ofWord w).terminals = w := by
  induction w with
  | nil => rfl
  | cons c w ih => exact congrArg (c :: ·) ih

/-- The start nonterminal derives a word. -/
def CFG.Generates (c : CFG) (w : List Char) : Prop := c.grammar.Derives c.origin (.ofWord w)

end Automata
