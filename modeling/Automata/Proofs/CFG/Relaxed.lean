import Automata.Proofs.CFG.Elements
import Automata.Proofs.Grammar.Leftmost

/-! # Nonterminals that are written like letters

A stack tells elements apart only by how they are written. Where a declared nonterminal is written
like a letter of the alphabet, the letter may be read off it; in the relaxed grammar it may become
that letter. The words of the relaxed grammar are the texts of derived forms in which all that is
left is written in letters.
-/

namespace Automata.CFG

/-- The productions that turn nonterminals into the letters that they are written like. -/
def letterProductions (A : Alphabet) : List Production :=
  A.characters.toList.map fun a => ⟨Symbol.ofChar a, ⟨[.terminal a]⟩⟩

/-- The grammar in which a nonterminal may also become the letter that it is written like. -/
def relaxed (c : CFG) : Grammar := (letterProductions c.alphabet).foldl Grammar.add c.grammar

/-- The nonterminals of a form, if any, are all written like letters. -/
def Passes (c : CFG) (f : Form) : Prop :=
  ∀ v ∈ f.nonterminals, ∃ a ∈ c.alphabet, v = Symbol.ofChar a

/-- No form that the start nonterminal derives passes for a word before it is one. -/
def Unmistakable (c : CFG) : Prop :=
  ∀ f, c.grammar.Derives c.origin f → c.Passes f → f.isComplete = true

variable {c : CFG} {name : String} {output f : Form} {es : List Element} {w : List Char} {a : Char}

theorem passes_nil : c.Passes ⟨[]⟩ := fun _ member => absurd member List.not_mem_nil

@[simp] theorem passes_cons_terminal : c.Passes ⟨.terminal a :: es⟩ ↔ c.Passes ⟨es⟩ := Iff.rfl

@[simp] theorem passes_cons_nonterminal : c.Passes ⟨.nonterminal name :: es⟩ ↔
    (∃ a ∈ c.alphabet, name = Symbol.ofChar a) ∧ c.Passes ⟨es⟩ :=
  List.forall_mem_cons

theorem mem_outputs_relaxed :
    output ∈ c.relaxed.outputs name ↔ output ∈ c.grammar.outputs name ∨
      ∃ a ∈ c.alphabet, name = Symbol.ofChar a ∧ output = ⟨[.terminal a]⟩ := by
  rw [Grammar.mem_outputs, Grammar.mem_outputs, relaxed,
    Grammar.mem_productions_foldl_add]
  refine or_congr Iff.rfl ?_
  simp only [letterProductions, List.mem_map, Production.mk.injEq]
  exact ⟨fun ⟨a, letter, same, result⟩ => ⟨a, letter, same.symm, result.symm⟩,
    fun ⟨a, letter, same, result⟩ => ⟨a, letter, same.symm, result.symm⟩⟩

theorem derives_relaxed {f h : Form} (derived : c.grammar.Derives f h) : c.relaxed.Derives f h :=
  derived.mono fun _ _ produced => mem_outputs_relaxed.mpr (.inl produced)

/-- A form that passes for a word becomes it. -/
theorem spells_relaxed_of_passes (passes : c.Passes ⟨es⟩) :
    c.relaxed.Spells es (Form.mk es).text.toList := by
  induction es with
  | nil => exact .nil
  | cons e es ih =>
      rw [Form.toList_text_cons]
      cases e with
      | terminal a =>
          simpa [Element.text, Symbol.ofChar] using (ih (passes_cons_terminal.mp passes)).terminal
      | nonterminal name =>
          obtain ⟨⟨a, letter, rfl⟩, rest⟩ := passes_cons_nonterminal.mp passes
          refine .nonterminal (mem_outputs_relaxed.mpr (.inr ⟨a, letter, rfl, rfl⟩)) ?_
          simpa [Element.text, Symbol.ofChar] using (ih rest).terminal

/-- What the relaxed grammar spells is the text of a form that passes for a word. -/
theorem exists_derives_of_spells_relaxed (spelled : c.relaxed.Spells es w) :
    ∃ f, c.grammar.Derives ⟨es⟩ f ∧ c.Passes f ∧ f.text.toList = w := by
  induction spelled with
  | nil => exact ⟨⟨[]⟩, .refl, passes_nil, by simp [Form.text]⟩
  | @terminal a es w _ ih =>
      obtain ⟨f, derived, passes, rfl⟩ := ih
      refine ⟨⟨.terminal a :: f.elements⟩, derived.cons _, passes, ?_⟩
      rw [Form.toList_text_cons]
      simp [Element.text, Symbol.ofChar]
  | @nonterminal name output es w produced _ ih =>
      obtain ⟨f, derived, passes, rfl⟩ := ih
      rcases mem_outputs_relaxed.mp produced with produced | ⟨a, letter, rfl, rfl⟩
      · have expanded : Form.mk (output.elements ++ es) ∈
            c.grammar.expand ⟨.nonterminal name :: es⟩ :=
          Grammar.mem_expand.mpr ⟨[], name, es, rfl, output, produced, rfl⟩
        exact ⟨f, .step expanded derived, passes, rfl⟩
      · -- the nonterminal is left as it is, and the form has the same text
        obtain ⟨fs, rfl, rest⟩ := Grammar.Derives.of_terminal derived
        refine ⟨⟨.nonterminal (Symbol.ofChar a) :: fs⟩, rest.cons _, ?_, ?_⟩
        · exact passes_cons_nonterminal.mpr ⟨⟨a, letter, rfl⟩, passes_cons_terminal.mp passes⟩
        · rw [Form.toList_text_cons, Form.toList_text_cons]
          rfl

theorem isComplete_of_passes (passes : c.Passes f)
    (none : ∀ a ∈ c.alphabet, Element.nonterminal (Symbol.ofChar a) ∉ f.elements) :
    f.isComplete = true := by
  refine List.all_eq_true.mpr fun e member => ?_
  cases e with
  | terminal a => rfl
  | nonterminal v =>
      obtain ⟨a, letter, rfl⟩ := passes v (List.mem_filterMap.mpr ⟨_, member, rfl⟩)
      exact absurd member (none a letter)

/-- Nothing passes for a word where no declared name is a letter of the alphabet. -/
theorem unmistakable_of_apart (apart : ∀ v ∈ c.nonterminals, v ∉ c.alphabet.symbols) :
    c.Unmistakable := fun _ derived passes =>
  isComplete_of_passes passes fun a letter member =>
    apart _ (arises_of_derives derived _ member).uses (Alphabet.mem_symbols.mpr ⟨a, letter, rfl⟩)

theorem Legible.unmistakable (legible : c.Legible) : c.Unmistakable := by
  refine unmistakable_of_apart fun v declared member => ?_
  obtain ⟨a, letter, rfl⟩ := Alphabet.mem_symbols.mp member
  obtain ⟨b, capital, same⟩ := legible (.nonterminal _) declared
  obtain rfl := Symbol.ofChar_injective same
  exact absurd capital (legible (.terminal a) letter)

/-- Where forms cannot be mistaken for words, the relaxed grammar generates nothing more. -/
theorem Unmistakable.generates (clear : c.Unmistakable)
    (spelled : c.relaxed.Spells c.origin.elements w) : c.Generates w := by
  obtain ⟨f, derived, passes, rfl⟩ := exists_derives_of_spells_relaxed spelled
  have complete := clear f derived passes
  obtain ⟨u, rfl⟩ | ⟨u, name, es, rfl⟩ := f.eq_ofWord_or_eq_after
  · rwa [Form.text_ofWord, String.toList_ofList]
  · simp [Form.isComplete, Element.isTerminal] at complete

end Automata.CFG
