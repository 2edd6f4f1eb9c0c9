import Mathlib.Logic.Relation
import Automata.Proofs.Grammar.Derivation

/-! # Expanding the leftmost nonterminal only

A form is complete, or its leftmost nonterminal stands after a word that every word derived from
it begins with. A word that is derived in some order is derived from left to right.
-/

namespace Automata

variable {g : Grammar} {f h : Form} {name : String} {output : Form} {es : List Element}
  {u v w : List Char}

/-- Some elements after a word. -/
def Form.after (u : List Char) (es : List Element) : Form := ⟨u.map .terminal ++ es⟩

@[simp] theorem Form.elements_after : (Form.after u es).elements = u.map .terminal ++ es := rfl

@[simp] theorem Form.elements_ofWord : (Form.ofWord w).elements = w.map .terminal := rfl

@[simp] theorem Form.after_nil : Form.after u [] = .ofWord u := by
  simp [after, ofWord]

theorem Form.after_terminal {c : Char} :
    Form.after u (.terminal c :: es) = .after (u ++ [c]) es := by
  simp [after]

theorem Form.eq_ofWord_or_eq_after (f : Form) :
    (∃ w, f = .ofWord w) ∨ ∃ u name es, f = .after u (.nonterminal name :: es) := by
  obtain ⟨elements⟩ := f
  induction elements with
  | nil => exact .inl ⟨[], rfl⟩
  | cons e elements ih =>
      cases e with
      | nonterminal name => exact .inr ⟨[], name, elements, rfl⟩
      | terminal c =>
          obtain ⟨w, same⟩ | ⟨u, name, es, same⟩ := ih
          · obtain rfl : elements = w.map .terminal := congrArg Form.elements same
            exact .inl ⟨c :: w, rfl⟩
          · obtain rfl : elements = u.map .terminal ++ .nonterminal name :: es :=
              congrArg Form.elements same
            exact .inr ⟨c :: u, name, es, rfl⟩

theorem Form.ofWord_inj : Form.ofWord u = .ofWord v ↔ u = v := by
  refine ⟨fun same => ?_, congrArg _⟩
  rw [← Form.terminals_ofWord u, same, Form.terminals_ofWord]

theorem Form.after_ne_ofWord : Form.after u (.nonterminal name :: es) ≠ .ofWord w := by
  intro same
  have complete := Form.isComplete_ofWord w
  rw [← same] at complete
  simp [isComplete, Element.isTerminal] at complete

theorem Form.toList_text_cons {e : Element} :
    (Form.mk (e :: es)).text.toList = e.text.toList ++ (Form.mk es).text.toList := by
  simp [text, String.toList_join]

theorem Form.mem_toList_text {a : Char} :
    a ∈ f.text.toList ↔ ∃ e ∈ f.elements, a ∈ e.text.toList := by
  rw [text, String.toList_join, List.flatMap_map, List.mem_flatMap]

@[simp] theorem Form.text_ofWord : (Form.ofWord w).text = String.ofList w := by
  apply String.toList_inj.mp
  simp [text, ofWord, Element.text, Symbol.ofChar, String.toList_join, List.flatMap_map]

@[simp] theorem Form.firstNonterminal?_ofWord : (Form.ofWord w).firstNonterminal? = none := by
  simp [firstNonterminal?, Element.isTerminal]

@[simp] theorem Form.firstNonterminal?_after :
    (Form.after u (.nonterminal name :: es)).firstNonterminal? = some u.length := by
  have complete : (u.map Element.terminal).findIdx? (fun e => !e.isTerminal) = none := by
    simp [Element.isTerminal]
  rw [firstNonterminal?, elements_after, List.findIdx?_append, complete]
  simp [List.findIdx?_cons, Element.isTerminal]

namespace Grammar

/-- The forms that expanding the leftmost nonterminal leads to. A complete form leads nowhere. -/
def expandFirst (g : Grammar) (f : Form) : SortedSet Form :=
  match f.firstNonterminal? with
  | none => ∅
  | some i => g.expandAt f i

theorem not_mem_expandFirst_ofWord : h ∉ g.expandFirst (.ofWord w) := by
  rw [expandFirst, Form.firstNonterminal?_ofWord]
  exact SortedSet.not_mem_empty h

theorem mem_expandFirst_after :
    h ∈ g.expandFirst (.after u (.nonterminal name :: es)) ↔
      ∃ output ∈ g.outputs name, h = .after u (output.elements ++ es) := by
  have rest : (u.map Element.terminal ++ .nonterminal name :: es).drop (u.length + 1) = es := by
    rw [List.append_cons, List.drop_left' (by simp)]
  rw [expandFirst, Form.firstNonterminal?_after]
  simp [mem_expandAt, Form.after, rest]

theorem expandFirst_subset (expanded : h ∈ g.expandFirst f) : h ∈ g.expand f := by
  obtain ⟨w, rfl⟩ | ⟨u, name, es, rfl⟩ := f.eq_ofWord_or_eq_after
  · exact absurd expanded not_mem_expandFirst_ofWord
  · obtain ⟨output, produced, rfl⟩ := mem_expandFirst_after.mp expanded
    exact mem_expand.mpr ⟨_, name, es, rfl, output, produced, (List.append_assoc ..).symm⟩

/-- Leftmost expansions lead from one form to another. -/
abbrev Leftmost (g : Grammar) : Form → Form → Prop :=
  Relation.ReflTransGen fun f h => h ∈ g.expandFirst f

theorem Spells.leftmost (spelled : g.Spells es w) :
    g.Leftmost (.after u es) (.ofWord (u ++ w)) := by
  induction spelled generalizing u with
  | nil =>
      rw [Form.after_nil, List.append_nil]
  | @terminal c es w _ ih =>
      rw [Form.after_terminal, List.append_cons u c w]
      exact ih
  | @nonterminal name output es w produced _ ih =>
      exact .head (mem_expandFirst_after.mpr ⟨output, produced, rfl⟩) ih

/-- Expansions in any order derive the words that leftmost expansions derive. -/
theorem derives_iff_leftmost : g.Derives f (.ofWord w) ↔ g.Leftmost f (.ofWord w) := by
  constructor
  · intro derived
    exact (derives_iff_spells.mp derived).leftmost (u := [])
  · intro leads
    induction leads using Relation.ReflTransGen.head_induction_on with
    | refl => exact .refl
    | head expanded _ ih => exact .step (expandFirst_subset expanded) ih

end Grammar

end Automata
