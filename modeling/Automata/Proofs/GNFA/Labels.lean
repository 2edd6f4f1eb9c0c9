import Automata.GNFA.Labels
import Automata.Proofs.NFA.Language
import Automata.Proofs.Regex.Simplified
import Automata.Proofs.Table

/-! # Reading labelled pairs

A pair is listed exactly when its label is not null, so that everything about the labels is a fact
about the label of each pair. The expression of a set of symbols matches what they spell.
-/

namespace Automata

namespace PairLabels

variable {S : SortedSet State} {t : Table (State × State) Regex} {d : PairLabels} {p q s : State}

theorem label_ofTable : (ofTable S t).label p q = (t.get? (p, q)).getD .null := by
  rw [label, ofTable, Table.get?_filter]
  cases t.get? (p, q) with
  | none => rfl
  | some r => cases r <;> rfl

theorem mem_keys_iff : (p, q) ∈ d.table.keys ↔ d.label p q ≠ .null := by
  rw [Table.mem_keys_iff, label]
  cases found : d.table.get? (p, q) with
  | none => simp
  | some r =>
      have listed := d.no_null _ (Table.get?_eq_some_iff.mp found)
      constructor
      · intro _ null
        have null : r = .null := null
        simp [null, Regex.isNull] at listed
      · intro _
        exact ⟨r, rfl⟩

theorem mem_targets : q ∈ d.targets ↔ ∃ p, d.label p q ≠ .null := by
  simp only [targets, SortedSet.mem_ofList, List.mem_map, Prod.exists, mem_keys_iff]
  simp

theorem mem_sources : p ∈ d.sources ↔ ∃ q, d.label p q ≠ .null := by
  simp only [sources, SortedSet.mem_ofList, List.mem_map, Prod.exists, mem_keys_iff]
  simp

theorem label_without {l : List (State × State)} {f : State × State → Regex} :
    (d.without s (l.map fun k => (k, f k))).label p q =
      if (p, q) ∈ l then f (p, q) else if p ≠ s ∧ q ≠ s then d.label p q else .null := by
  rw [without, label_ofTable, Table.get?_putAll_map, Table.get?_filterKeys]
  by_cases updated : (p, q) ∈ l
  · simp [updated]
  · by_cases others : p ≠ s ∧ q ≠ s
    · simp [updated, others, label]
    · simp [updated, others]

end PairLabels

namespace Regex

variable {A : Alphabet} {symbols : SortedSet Symbol}

/-- The expression that matches exactly the given symbols, none of them ε. -/
def ofLetters (letters : SortedSet Symbol) : Regex :=
  match letters.toList with
  | [] => .null
  | [a] => .lit a
  | _ => .choice letters

/-- The symbols other than ε. -/
def lettersOf (symbols : SortedSet Symbol) : SortedSet Symbol :=
  symbols.filter fun a => decide (a ≠ Symbol.epsilon)

theorem mem_lettersOf {a : Symbol} : a ∈ lettersOf symbols ↔ a ∈ symbols ∧ a ≠ Symbol.epsilon := by
  simp [lettersOf]

theorem ofSymbols_eq : ofSymbols symbols =
    if Symbol.epsilon ∈ symbols then unionOf [.empty, ofLetters (lettersOf symbols)]
    else ofLetters (lettersOf symbols) :=
  rfl

theorem matches_ofLetters {letters : SortedSet Symbol} (known : ∀ a ∈ letters, a ∈ A.symbols)
    {w : List Char} : Matches A (ofLetters letters) w ↔ ∃ a ∈ letters, w = a.spelled := by
  have spelled : (∃ a ∈ letters, w = a.spelled) ↔ ∃ c, Symbol.ofChar c ∈ letters ∧ w = [c] := by
    constructor
    · intro h
      obtain ⟨a, member, rfl⟩ := h
      obtain ⟨c, letter, rfl⟩ := Alphabet.mem_symbols.mp (known a member)
      exact ⟨c, member, Symbol.spelled_ofChar (Alphabet.ne_epsilon letter)⟩
    · intro h
      obtain ⟨c, member, rfl⟩ := h
      have letter := Alphabet.ofChar_mem_symbols.mp (known _ member)
      exact ⟨_, member, (Symbol.spelled_ofChar (Alphabet.ne_epsilon letter)).symm⟩
  rw [spelled, ← mem_language]
  unfold ofLetters
  split
  · rename_i none
    have empty : ∀ a, a ∉ letters := by
      intro a
      rw [← SortedSet.mem_toList, none]
      exact List.not_mem_nil
    simp [empty, Language.notMem_zero]
  · rename_i a only
    have single : ∀ b, b ∈ letters ↔ b = a := by
      intro b
      rw [← SortedSet.mem_toList, only]
      exact List.mem_singleton
    obtain ⟨c, _, rfl⟩ := Alphabet.mem_symbols.mp (known a ((single a).mpr rfl))
    rw [language_lit]
    simp [single, Symbol.ofChar, String.singleton_inj]
  · rw [language_choice, mem_letters]

/-- The expression of a set of symbols matches what they spell, each alone. -/
theorem matches_ofSymbols (known : ∀ a ∈ symbols, a = Symbol.epsilon ∨ a ∈ A.symbols)
    {w : List Char} : Matches A (ofSymbols symbols) w ↔ ∃ a ∈ symbols, w = a.spelled := by
  have letters : Matches A (ofLetters (lettersOf symbols)) w ↔
      ∃ a ∈ symbols, a ≠ Symbol.epsilon ∧ w = a.spelled := by
    rw [matches_ofLetters fun a member =>
      (known a (mem_lettersOf.mp member).1).resolve_left (mem_lettersOf.mp member).2]
    simp only [mem_lettersOf, and_assoc]
  rw [ofSymbols_eq]
  by_cases waits : Symbol.epsilon ∈ symbols
  · rw [if_pos waits, matches_unionOf]
    simp only [List.mem_cons, List.not_mem_nil, or_false, exists_eq_or_imp, exists_eq_left, letters]
    constructor
    · intro h
      cases h with
      | inl nothing =>
          cases nothing
          exact ⟨_, waits, rfl⟩
      | inr other =>
          obtain ⟨a, member, _, same⟩ := other
          exact ⟨a, member, same⟩
    · intro h
      obtain ⟨a, member, rfl⟩ := h
      by_cases reads : a = Symbol.epsilon
      · subst reads
        exact .inl .empty
      · exact .inr ⟨a, member, reads, rfl⟩
  · rw [if_neg waits, letters]
    constructor
    · intro h
      obtain ⟨a, member, _, same⟩ := h
      exact ⟨a, member, same⟩
    · intro h
      obtain ⟨a, member, same⟩ := h
      refine ⟨a, member, ?_, same⟩
      rintro rfl
      exact waits member

/-- What passes from parts to an expression holds of the expression of a set of symbols if it holds
    of the literals and of the choice that its characters make. -/
theorem Hereditary.ofSymbols {P : Regex → Prop} (hereditary : Hereditary P)
    (lit : ∀ a ∈ lettersOf symbols, P (.lit a)) (choice : P (.choice (lettersOf symbols))) :
    P (Regex.ofSymbols symbols) := by
  have rest : P (ofLetters (lettersOf symbols)) := by
    unfold ofLetters
    split
    · exact hereditary.null
    · rename_i a only
      apply lit
      rw [← SortedSet.mem_toList, only]
      exact List.mem_singleton.mpr rfl
    · exact choice
  rw [ofSymbols_eq]
  split
  · apply hereditary.unionOf
    simpa using ⟨hereditary.empty, rest⟩
  · exact rest

theorem isOver_ofSymbols (known : ∀ a ∈ symbols, a = Symbol.epsilon ∨ a ∈ A.symbols) :
    (ofSymbols symbols).IsOver A := by
  have letters : ∀ a ∈ lettersOf symbols, a ∈ A.symbols := by
    intro a member
    exact (known a (mem_lettersOf.mp member).1).resolve_left (mem_lettersOf.mp member).2
  refine (hereditary_isOver A).ofSymbols (fun a member => ?_) letters
  obtain ⟨c, letter, rfl⟩ := Alphabet.mem_symbols.mp (letters a member)
  intro d inside
  obtain rfl : d = c := by simpa [Symbol.ofChar] using inside
  exact letter

end Regex

end Automata
