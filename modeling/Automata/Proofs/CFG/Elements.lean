import Automata.Proofs.Grammar.Rules
import Automata.Proofs.NFA.Language

/-! # What the rules of a grammar mention

Nonterminals that are read from rules are single capital letters and terminals are not, so that no
two elements share a text, and none is written like ε or the bottom marker.
-/

namespace Automata

/-- The characters that name nonterminals. -/
def Element.IsCapital (c : Char) : Prop := 'A' ≤ c ∧ c ≤ 'Z'

theorem Element.ofChar_ne_bottom {c : Char} (capital : IsCapital c) :
    Symbol.ofChar c ≠ Symbol.bottom := by
  intro same
  obtain rfl : c = '$' := Symbol.ofChar_injective same
  exact absurd capital (by unfold IsCapital; decide)

/-- A nonterminal of one capital letter, or a terminal that is none. -/
def Element.Plain : Element → Prop
  | .nonterminal name => ∃ c, IsCapital c ∧ name = Symbol.ofChar c
  | .terminal c => ¬ IsCapital c

theorem Element.plain_of_ofChar? {c : Char} {e : Element} (read : ofChar? c = some e) :
    e.Plain := by
  unfold ofChar? at read
  split at read
  · cases read
  · split at read
    · cases read
      exact ⟨c, ‹_›, rfl⟩
    · cases read
      exact ‹_›

/-! ### Reading rules -/

namespace Grammar

/-- Entries are capital letters, and outputs hold plain elements. -/
structure Plain (g : Grammar) : Prop where
  head : ∀ v ∈ g.heads, (Element.nonterminal v).Plain
  output : ∀ p ∈ g.productions, ∀ e ∈ p.output.elements, e.Plain

/-- A production that a rule can list. -/
def PlainProduction (p : Production) : Prop :=
  (Element.nonterminal p.head).Plain ∧ ∀ e ∈ p.output.elements, e.Plain

variable {g : Grammar}

theorem Plain.add {p : Production} (plain : g.Plain) (new : PlainProduction p) :
    (g.add p).Plain where
  head v member := by
    rcases SortedSet.mem_insert.mp member with rfl | old
    · exact new.1
    · exact plain.head v old
  output q member := by
    rcases SortedSet.mem_insert.mp member with rfl | old
    · exact new.2
    · exact plain.output q old

theorem IsListed.plain {p : Production} (listed : IsListed p) : PlainProduction p := by
  refine ⟨listed.head, fun e inside => ?_⟩
  rw [← listed.output.read] at inside
  obtain ⟨c, _, read⟩ := List.mem_filterMap.mp inside
  exact Element.plain_of_ofChar? read

theorem plain_foldl_add {ps : List Production} (plain : g.Plain)
    (new : ∀ p ∈ ps, PlainProduction p) : (ps.foldl add g).Plain := by
  induction ps generalizing g with
  | nil => exact plain
  | cons p ps ih =>
      obtain ⟨first, later⟩ := List.forall_mem_cons.mp new
      exact ih (plain.add first) later

theorem plain_of_ofRules {rules : List String} (read : ofRules rules = .ok g) : g.Plain := by
  obtain ⟨ps, listed, rfl⟩ := ofRules_ok read
  have initial : empty.Plain :=
    ⟨fun _ member => absurd member (SortedSet.not_mem_empty _),
      fun _ member => absurd member (SortedSet.not_mem_empty _)⟩
  exact plain_foldl_add initial fun p member => (listed p member).plain

theorem Plain.nonterminal (plain : g.Plain) {v : String} (member : v ∈ g.nonterminals) :
    (Element.nonterminal v).Plain := by
  rcases SortedSet.mem_union.mp member with entry | used
  · exact plain.head v entry
  · obtain ⟨p, production, inside⟩ := List.mem_flatMap.mp (SortedSet.mem_ofList.mp used)
    obtain ⟨e, element, named⟩ := List.mem_filterMap.mp inside
    cases e with
    | nonterminal name =>
        cases named
        exact plain.output p production _ element
    | terminal c => cases named

theorem Plain.terminal (plain : g.Plain) {c : Char} (member : c ∈ g.terminals) :
    (Element.terminal c).Plain := by
  obtain ⟨p, production, inside⟩ := List.mem_flatMap.mp (SortedSet.mem_ofList.mp member)
  obtain ⟨e, element, named⟩ := List.mem_filterMap.mp inside
  cases e with
  | nonterminal name => cases named
  | terminal d =>
      cases named
      exact plain.output p production _ element

end Grammar

namespace CFG

/-- A declared nonterminal or a terminal of the alphabet. -/
def Uses (c : CFG) : Element → Prop
  | .nonterminal name => name ∈ c.nonterminals
  | .terminal a => a ∈ c.alphabet

/-- Elements are told apart by how they are written. -/
def Legible (c : CFG) : Prop := ∀ e, c.Uses e → e.Plain

variable {c : CFG} {name : String} {output : Form} {e f : Element}

theorem uses_of_mem_outputs (produced : output ∈ c.grammar.outputs name) :
    ∀ e ∈ output.elements, c.Uses e := by
  intro e member
  have production := Grammar.mem_outputs.mp produced
  cases e with
  | nonterminal v =>
      refine c.nonterminal_mem v (SortedSet.mem_union.mpr (.inr (SortedSet.mem_ofList.mpr ?_)))
      exact List.mem_flatMap.mpr ⟨_, production, List.mem_filterMap.mpr ⟨_, member, rfl⟩⟩
  | terminal a =>
      refine c.terminal_mem a (SortedSet.mem_ofList.mpr ?_)
      exact List.mem_flatMap.mpr ⟨_, production, List.mem_filterMap.mpr ⟨_, member, rfl⟩⟩

theorem head_mem_nonterminals (produced : output ∈ c.grammar.outputs name) :
    name ∈ c.nonterminals := by
  have production := Grammar.mem_outputs.mp produced
  exact c.nonterminal_mem name (SortedSet.mem_union.mpr (.inl (c.grammar.head_mem _ production)))

theorem legible_of_ofRules {rules : List String} {start : String}
    (read : ofRules rules start = .ok c) : c.Legible := by
  unfold ofRules at read
  cases parsed : Grammar.ofRules rules with
  | error e =>
      rw [parsed] at read
      cases read
  | ok g =>
      rw [parsed] at read
      have plain := Grammar.plain_of_ofRules parsed
      cases collected : Alphabet.ofSet g.terminals with
      | error e =>
          simp only [collected, bind, Except.bind] at read
          cases read
      | ok A =>
          have characters : A.characters = g.terminals := by
            unfold Alphabet.ofSet at collected
            split at collected
            · cases collected
            · split at collected
              · cases collected
              · cases collected
                rfl
          simp only [collected, bind, Except.bind, ofParts] at read
          split at read <;> try cases read
          split at read <;> try cases read
          split at read <;> try cases read
          split at read <;> try cases read
          intro e used
          cases e with
          | nonterminal v => exact plain.nonterminal used
          | terminal a =>
              have used : a ∈ A.characters := used
              exact plain.terminal (characters ▸ used)

/-! ### What stands on a stack -/

/-- The start nonterminal, or an element of an output. -/
def Arises (c : CFG) (e : Element) : Prop :=
  e = .nonterminal c.start ∨ ∃ p ∈ c.grammar.productions, e ∈ p.output.elements

/-- What is written like ε or the bottom marker stands nowhere in a derivation, and terminals are
    not written like the nonterminals that are expanded. -/
structure Clear (c : CFG) : Prop where
  plain : c.grammar.Plain
  epsilon_not_mem : Symbol.epsilon ∉ c.nonterminals
  start_ne_bottom : c.start ≠ Symbol.bottom

theorem Arises.uses (arises : c.Arises e) : c.Uses e := by
  rcases arises with rfl | ⟨p, production, member⟩
  · exact c.start_mem
  · exact uses_of_mem_outputs (Grammar.mem_outputs.mpr production) e member

theorem arises_of_derives {f : Form} (derived : c.grammar.Derives c.origin f) :
    ∀ e ∈ f.elements, c.Arises e := by
  intro e member
  refine (derived.mem_elements e member).imp_left fun first => ?_
  exact List.mem_singleton.mp first

theorem text_ne_epsilon (proper : Symbol.epsilon ∉ c.nonterminals) (used : c.Uses e) :
    e.text ≠ Symbol.epsilon := by
  rintro same
  cases e with
  | nonterminal v => exact proper (same ▸ used)
  | terminal a => exact Alphabet.ne_epsilon used (Symbol.ofChar_injective same)

namespace Clear

variable (clear : c.Clear)

include clear

theorem text_ne_bottom (arises : c.Arises e) : e.text ≠ Symbol.bottom := by
  cases e with
  | terminal a =>
      exact fun same => c.bottom_not_mem (same ▸ Alphabet.mem_symbols.mpr ⟨a, arises.uses, rfl⟩)
  | nonterminal v =>
      rcases arises with same | ⟨p, production, member⟩
      · cases same
        exact clear.start_ne_bottom
      · obtain ⟨a, capital, rfl⟩ := clear.plain.output p production _ member
        exact Element.ofChar_ne_bottom capital

theorem head_ne_bottom (produced : output ∈ c.grammar.outputs name) : name ≠ Symbol.bottom := by
  obtain ⟨a, capital, rfl⟩ :=
    clear.plain.head name (c.grammar.head_mem _ (Grammar.mem_outputs.mp produced))
  exact Element.ofChar_ne_bottom capital

/-- What is written like a nonterminal that is expanded is that nonterminal. -/
theorem eq_nonterminal (arises : c.Arises e) (produced : output ∈ c.grammar.outputs name)
    (same : e.text = name) : e = .nonterminal name := by
  cases e with
  | nonterminal v => exact congrArg Element.nonterminal same
  | terminal a =>
      obtain ⟨b, capital, rfl⟩ :=
        clear.plain.head name (c.grammar.head_mem _ (Grammar.mem_outputs.mp produced))
      obtain rfl : a = b := Symbol.ofChar_injective same
      rcases arises with start | ⟨p, production, member⟩
      · cases start
      · exact absurd capital (clear.plain.output p production _ member)

end Clear

theorem Legible.clear (legible : c.Legible) : c.Clear where
  plain := {
    head := fun v member => legible (.nonterminal v)
      (c.nonterminal_mem v (SortedSet.mem_union.mpr (.inl member)))
    output := fun p production e member => legible e
      (uses_of_mem_outputs (Grammar.mem_outputs.mpr production) e member) }
  epsilon_not_mem declared := by
    obtain ⟨a, capital, same⟩ := legible (.nonterminal Symbol.epsilon) declared
    obtain rfl : 'ε' = a := Symbol.ofChar_injective same
    exact absurd capital (by unfold Element.IsCapital; decide)
  start_ne_bottom := by
    obtain ⟨a, capital, same⟩ := legible (.nonterminal c.start) c.start_mem
    exact same ▸ Element.ofChar_ne_bottom capital

end CFG

end Automata
