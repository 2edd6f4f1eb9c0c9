import Automata.Proofs.Regex.Language
import Automata.Proofs.Regex.Reader
import Automata.Proofs.Regex.Simplified
import Automata.Regex.Characters
import Automata.Regex.Printer

/-! # Reading back what is printed

The printer puts parentheses where the grammar of patterns needs them. What is printed for an
expression whose characters can be written is an item, a sequence or an alternation, depending on
the expression, and stands for an expression of the same language.
-/

namespace Automata.Regex

/-- Outside of choices a character is read as itself. The point stands for any character, which is
    itself where the alphabet holds nothing else. -/
def StandsForItself (A : Alphabet) (c : Char) : Prop :=
  c ∉ operators ∨ (c = '.' ∧ ∀ d, d ∈ A ↔ d = '.')

mutual

/-- Literals and choices are written so that they can be read back. -/
def IsReadable (A : Alphabet) : Regex → Prop
  | .empty | .null | .any => True
  | .lit text => ∃ c, text = String.singleton c ∧ StandsForItself A c
  | .choice symbols => ∀ a ∈ symbols.toList, ∃ c, c ≠ ']' ∧ a = Symbol.ofChar c
  | .concat parts | .union parts => AreReadable A parts
  | .star r | .plus r | .opt r => IsReadable A r

/-- All the expressions of a list can be read back. -/
def AreReadable (A : Alphabet) : List Regex → Prop
  | [] => True
  | r :: parts => IsReadable A r ∧ AreReadable A parts

end

variable {A : Alphabet} {r s e : Regex} {l items : List Regex} {sequences : List (List Regex)}
  {cs ds : List Char}

theorem areReadable_iff : AreReadable A l ↔ ∀ r ∈ l, IsReadable A r := by
  induction l with
  | nil => simp [AreReadable]
  | cons r l ih => simp [AreReadable, ih]

theorem hereditary_isReadable (A : Alphabet) : Hereditary (IsReadable A) where
  empty := trivial
  null := trivial
  concat _ := areReadable_iff
  union _ := areReadable_iff
  star _ := Iff.rfl

/-! ### What a text stands for -/

/-- Sequences that stand for an expression: they have its language, and they are over the alphabet
    when it is. -/
structure StandFor (A : Alphabet) (sequences : List (List Regex)) (r : Regex) : Prop where
  language : (sequences.map fun items => (concat items).language A).sum = r.language A
  isOver : (∀ items ∈ sequences, AreOver A items) ↔ r.IsOver A

/-- A text is an item that stands for an expression. -/
def ReadsItem (A : Alphabet) (cs : List Char) (r : Regex) : Prop :=
  ∃ e, IsItem cs e ∧ StandFor A [[e]] r

/-- A text is a sequence that stands for an expression. -/
def ReadsSequence (A : Alphabet) (cs : List Char) (r : Regex) : Prop :=
  ∃ items, IsSequence cs items ∧ StandFor A [items] r

/-- A text is an alternation that stands for an expression. -/
def ReadsAlternation (A : Alphabet) (cs : List Char) (r : Regex) : Prop :=
  ∃ sequences, AreSequences cs sequences ∧ StandFor A sequences r

theorem standFor_singleton (language : e.language A = r.language A)
    (isOver : e.IsOver A ↔ r.IsOver A) : StandFor A [[e]] r where
  language := by simpa using language
  isOver := by simpa [AreOver] using isOver

theorem StandFor.language_single (h : StandFor A [[e]] r) : e.language A = r.language A := by
  simpa using h.language

theorem StandFor.isOver_single (h : StandFor A [[e]] r) : e.IsOver A ↔ r.IsOver A := by
  simpa [AreOver] using h.isOver

theorem StandFor.of_alike (h : StandFor A sequences r) (language : r.language A = s.language A)
    (isOver : r.IsOver A ↔ s.IsOver A) : StandFor A sequences s :=
  ⟨h.language.trans language, h.isOver.trans isOver⟩

theorem ReadsItem.sequence (h : ReadsItem A cs r) : ReadsSequence A cs r := by
  obtain ⟨e, item, stands⟩ := h
  exact ⟨[e], item.sequence, stands⟩

theorem ReadsSequence.alternation (h : ReadsSequence A cs r) : ReadsAlternation A cs r := by
  obtain ⟨items, sequence, stands⟩ := h
  exact ⟨[items], .one sequence, stands⟩

theorem language_joined :
    (concat (joined sequences)).language A =
      (sequences.map fun items => (concat items).language A).sum := by
  unfold joined
  split
  · simp
  · rw [language_concat_cons, language_concat_nil, mul_one, language_union, List.map_map]
    rfl

theorem areOver_joined : AreOver A (joined sequences) ↔ ∀ items ∈ sequences, AreOver A items := by
  unfold joined
  split
  · simp
  · simp [AreOver, IsOver, areOver_iff]

theorem ReadsItem.of_alike (h : ReadsItem A cs r) (language : r.language A = s.language A)
    (isOver : r.IsOver A ↔ s.IsOver A) : ReadsItem A cs s := by
  obtain ⟨e, item, stands⟩ := h
  exact ⟨e, item, stands.of_alike language isOver⟩

/-- In parentheses an alternation is an item. -/
theorem ReadsAlternation.group (h : ReadsAlternation A cs r) :
    ReadsItem A ('(' :: cs ++ [')']) r := by
  obtain ⟨sequences, alternation, stands⟩ := h
  refine ⟨_, .atom (.group (.of alternation)), standFor_singleton ?_ ?_⟩
  · rw [language_joined, stands.language]
  · rw [IsOver, areOver_joined, stands.isOver]

/-! ### Levels of the grammar -/

/-- What is printed for an expression can be read back, as tightly as the printer assumes. -/
structure ReadsBack (A : Alphabet) (cs : List Char) (r : Regex) : Prop where
  alternation : ReadsAlternation A cs r
  sequence : r.isAlternation = false → ReadsSequence A cs r
  item : r.isCompound = false → ReadsItem A cs r

theorem ReadsItem.readsBack (h : ReadsItem A cs r) : ReadsBack A cs r :=
  ⟨h.sequence.alternation, fun _ => h.sequence, fun _ => h⟩

theorem ReadsSequence.readsBack (h : ReadsSequence A cs r) (compound : r.isCompound = true) :
    ReadsBack A cs r :=
  ⟨h.alternation, fun _ => h, fun simple => by simp [compound] at simple⟩

theorem ReadsAlternation.readsBack (h : ReadsAlternation A cs r)
    (several : r.isAlternation = true) (compound : r.isCompound = true) : ReadsBack A cs r :=
  ⟨h, fun single => by simp [several] at single, fun simple => by simp [compound] at simple⟩

theorem ReadsBack.concat_singleton (h : ReadsBack A cs r) : ReadsBack A cs (.concat [r]) := by
  have language : r.language A = (concat [r]).language A := by simp
  have isOver : r.IsOver A ↔ (concat [r]).IsOver A := by simp [IsOver, AreOver]
  constructor
  · obtain ⟨sequences, text, stands⟩ := h.alternation
    exact ⟨sequences, text, stands.of_alike language isOver⟩
  · intro single
    obtain ⟨items, text, stands⟩ := h.sequence single
    exact ⟨items, text, stands.of_alike language isOver⟩
  · intro simple
    obtain ⟨e, text, stands⟩ := h.item simple
    exact ⟨e, text, stands.of_alike language isOver⟩

theorem ReadsBack.factor (h : ReadsBack A cs r) :
    ReadsSequence A (grouped r.isAlternation cs) r := by
  unfold grouped
  split
  · exact h.alternation.group.sequence
  · rename_i single
    exact h.sequence (Bool.eq_false_of_not_eq_true single)

theorem ReadsBack.base (h : ReadsBack A cs r) : ReadsItem A (grouped r.isCompound cs) r := by
  unfold grouped
  split
  · exact h.alternation.group
  · rename_i simple
    exact h.item (Bool.eq_false_of_not_eq_true simple)

theorem readsSequence_factors (parts : ∀ r ∈ l, ReadsBack A r.written r) :
    ReadsSequence A (writtenFactors l) (.concat l) := by
  induction l with
  | nil => exact ⟨[], .nil, by simp, by simp [IsOver]⟩
  | cons r l ih =>
      obtain ⟨items, first, stands⟩ := (parts r List.mem_cons_self).factor
      obtain ⟨more, rest, stands'⟩ := ih fun s member => parts s (List.mem_cons_of_mem r member)
      refine ⟨items ++ more, first.append rest, ?_, ?_⟩
      · have language := stands.language
        have language' := stands'.language
        simp only [List.map_cons, List.map_nil, List.sum_cons, List.sum_nil, add_zero] at *
        rw [language_concat_cons, ← language, ← language', language_concat, language_concat,
          language_concat, List.map_append, List.prod_append]
      · have isOver := stands.isOver
        have isOver' := stands'.isOver
        simp only [List.mem_singleton, forall_eq] at isOver isOver' ⊢
        show AreOver A (items ++ more) ↔ r.IsOver A ∧ (concat l).IsOver A
        rw [← isOver, ← isOver']
        simp [areOver_iff, or_imp, forall_and]

theorem readsAlternation_alternatives (first : ReadsAlternation A cs r)
    (parts : ∀ r ∈ l, ReadsBack A r.written r) :
    ReadsAlternation A (cs ++ writtenAlternatives l) (.union (r :: l)) := by
  induction l generalizing cs r with
  | nil =>
      obtain ⟨sequences, alternation, stands⟩ := first
      rw [writtenAlternatives, List.append_nil]
      refine ⟨sequences, alternation, ?_, ?_⟩
      · rw [stands.language, language_union]
        simp
      · rw [stands.isOver]
        simp [IsOver, AreOver]
  | cons s l ih =>
      obtain ⟨sequences, alternation, stands⟩ := first
      obtain ⟨more, next, stands'⟩ := (parts s List.mem_cons_self).alternation
      have both : ReadsAlternation A (cs ++ '|' :: s.written) (.union [r, s]) := by
        refine ⟨sequences ++ more, alternation.append next, ?_, ?_⟩
        · rw [List.map_append, List.sum_append, stands.language, stands'.language, language_union]
          simp
        · simp only [List.mem_append, or_imp, forall_and, stands.isOver, stands'.isOver]
          simp [IsOver, AreOver]
      obtain ⟨all, text, standsAll⟩ :=
        ih both fun t member => parts t (List.mem_cons_of_mem s member)
      refine ⟨all, ?_, ?_, ?_⟩
      · rw [writtenAlternatives]
        simpa using text
      · rw [standsAll.language, language_union, language_union]
        simp [language_union, add_assoc]
      · rw [standsAll.isOver]
        simp [IsOver, AreOver, and_assoc]

/-! ### Printing -/

theorem readsItem_empty : ReadsItem A ['(', ')'] .empty :=
  ⟨_, .atom (.group isAlternation_nil), standFor_singleton (by simp) (by simp [IsOver, AreOver])⟩

theorem readsItem_null : ReadsItem A ['[', ']'] .null := by
  refine ⟨_, .atom (@IsAtom.choice [] List.not_mem_nil), standFor_singleton ?_ ?_⟩
  · rw [language_choice, language_null]
    ext w
    simp [Language.notMem_zero]
  · simp [IsOver]

theorem readsItem_lit {text : String} (readable : IsReadable A (.lit text)) :
    ReadsItem A text.toList (.lit text) := by
  obtain ⟨c, rfl, plain | ⟨rfl, only⟩⟩ := readable
  · rw [String.toList_singleton]
    exact ⟨_, .atom (.literal plain), standFor_singleton rfl Iff.rfl⟩
  · refine ⟨_, .atom .any, standFor_singleton ?_ ?_⟩
    · rw [language_any, language_lit]
      ext w
      simp [only]
    · simp [IsOver, only]

theorem map_ofChar_flatMap {l : List Symbol} (letters : ∀ a ∈ l, ∃ c, a = Symbol.ofChar c) :
    (l.flatMap String.toList).map Symbol.ofChar = l := by
  induction l with
  | nil => rfl
  | cons a l ih =>
      obtain ⟨c, rfl⟩ := letters a List.mem_cons_self
      have rest := ih fun b member => letters b (List.mem_cons_of_mem _ member)
      simp [Symbol.ofChar, rest]

/-- The symbols of a choice are written in order, and are read back as the same set. -/
theorem isAtom_choice {symbols : SortedSet Symbol}
    (readable : ∀ a ∈ symbols.toList, ∃ c, c ≠ ']' ∧ a = Symbol.ofChar c) :
    IsAtom ('[' :: symbols.toList.flatMap String.toList ++ [']']) (.choice symbols) := by
  have letters : (symbols.toList.flatMap String.toList).map Symbol.ofChar = symbols.toList := by
    apply map_ofChar_flatMap
    intro a member
    obtain ⟨c, _, same⟩ := readable a member
    exact ⟨c, same⟩
  have plain : ']' ∉ symbols.toList.flatMap String.toList := by
    intro member
    obtain ⟨a, symbol, inside⟩ := List.mem_flatMap.mp member
    obtain ⟨c, other, rfl⟩ := readable a symbol
    have same : ']' = c := by simpa [Symbol.ofChar] using inside
    exact other same.symm
  have same : SortedSet.ofList ((symbols.toList.flatMap String.toList).map Symbol.ofChar) =
      symbols := SortedSet.ext fun a => by rw [letters, SortedSet.mem_ofList, SortedSet.mem_toList]
  have written := IsAtom.choice plain
  rwa [same] at written

theorem readsItem_choice {symbols : SortedSet Symbol} (readable : IsReadable A (.choice symbols)) :
    ReadsItem A ('[' :: symbols.toList.flatMap String.toList ++ [']']) (.choice symbols) :=
  ⟨_, .atom (isAtom_choice readable), standFor_singleton rfl Iff.rfl⟩

mutual

/-- What is printed for an expression is read back. -/
theorem readsBack_written : ∀ r : Regex, IsReadable A r → ReadsBack A r.written r
  | .empty, _ => readsItem_empty.readsBack
  | .null, _ => readsItem_null.readsBack
  | .any, _ => ReadsItem.readsBack ⟨_, .atom .any, standFor_singleton rfl Iff.rfl⟩
  | .lit _, readable => (readsItem_lit readable).readsBack
  | .choice _, readable => (readsItem_choice readable).readsBack
  | .concat [], _ =>
      ReadsItem.readsBack (readsItem_empty.of_alike (by simp) (by simp [IsOver, AreOver]))
  | .concat [r], readable => (readsBack_written r readable.1).concat_singleton
  | .concat (r :: s :: parts), readable =>
      (readsSequence_factors (readsBack_writtenAll (r :: s :: parts) readable)).readsBack rfl
  | .union [], _ =>
      ReadsItem.readsBack (readsItem_null.of_alike (by simp [language_union])
        (by simp [IsOver, AreOver]))
  | .union (r :: parts), readable =>
      (readsAlternation_alternatives (readsBack_written r readable.1).alternation
        (readsBack_writtenAll parts readable.2)).readsBack rfl rfl
  | .star r, readable => by
      obtain ⟨e, item, stands⟩ := (readsBack_written r readable).base
      refine ReadsItem.readsBack ⟨_, .star item, standFor_singleton ?_ stands.isOver_single⟩
      rw [language_star, language_star, stands.language_single]
  | .plus r, readable => by
      obtain ⟨e, item, stands⟩ := (readsBack_written r readable).base
      refine ReadsItem.readsBack ⟨_, .plus item, standFor_singleton ?_ stands.isOver_single⟩
      rw [language_plus, language_plus, stands.language_single]
  | .opt r, readable => by
      obtain ⟨e, item, stands⟩ := (readsBack_written r readable).base
      refine ReadsItem.readsBack ⟨_, .opt item, standFor_singleton ?_ stands.isOver_single⟩
      rw [language_opt, language_opt, stands.language_single]

theorem readsBack_writtenAll : ∀ l : List Regex, AreReadable A l →
    ∀ r ∈ l, ReadsBack A r.written r
  | [], _ => fun _ member => absurd member List.not_mem_nil
  | r :: l, readable => fun s member => by
      rcases List.mem_cons.mp member with same | rest
      · exact same ▸ readsBack_written r readable.1
      · exact readsBack_writtenAll l readable.2 s rest

end

theorem language_ofItems : (ofItems items).language A = (concat items).language A := by
  match items with
  | [] => simp [ofItems]
  | [r] => simp [ofItems]
  | _ :: _ :: _ => rfl

theorem isOver_ofItems : (ofItems items).IsOver A ↔ AreOver A items := by
  match items with
  | [] => simp [ofItems, IsOver, AreOver]
  | [r] => simp [ofItems, AreOver]
  | _ :: _ :: _ => exact Iff.rfl

/-- The pattern of an expression is read as one of the same language. -/
theorem parse_pattern (readable : r.IsReadable A) :
    ∃ s, parse r.pattern = .ok s ∧ s.language A = r.language A ∧ (s.IsOver A ↔ r.IsOver A) := by
  obtain ⟨sequences, alternation, stands⟩ := (readsBack_written r readable).alternation
  refine ⟨_, parse_ok (.of alternation), ?_, ?_⟩
  · rw [language_ofItems, language_joined, stands.language]
  · rw [isOver_ofItems, areOver_joined, stands.isOver]

/-! ### Every alphabet -/

mutual

/-- Where no character is an operator the alphabet does not matter to the reader. -/
theorem isReadable_of_isWritable (A : Alphabet) : ∀ r : Regex, IsWritable r → IsReadable A r
  | .empty, _ | .null, _ | .any, _ => trivial
  | .lit _, ⟨c, plain, same⟩ => ⟨c, same, .inl plain⟩
  | .choice _, writable => writable
  | .concat parts, writable | .union parts, writable =>
      areReadable_of_areWritable A parts writable
  | .star r, writable | .plus r, writable | .opt r, writable =>
      isReadable_of_isWritable A r writable

theorem areReadable_of_areWritable (A : Alphabet) :
    ∀ l : List Regex, AreWritable l → AreReadable A l
  | [], _ => trivial
  | r :: l, writable =>
      ⟨isReadable_of_isWritable A r writable.1, areReadable_of_areWritable A l writable.2⟩

end

/-- The pattern of an expression that can be written is read as an expression which matches the
    same words, whatever the alphabet is. -/
theorem parse_pattern_matches (writable : r.IsWritable) :
    ∃ s, parse r.pattern = .ok s ∧ ∀ A w, Matches A s w ↔ Matches A r w := by
  -- what is read does not depend on an alphabet, so any one shows that the pattern can be read
  let someAlphabet : Alphabet := ⟨.ofList ['a'], by decide, by decide⟩
  obtain ⟨s, read, _⟩ := parse_pattern (isReadable_of_isWritable someAlphabet r writable)
  refine ⟨s, read, fun A w => ?_⟩
  obtain ⟨t, again, language, _⟩ := parse_pattern (isReadable_of_isWritable A r writable)
  obtain rfl : s = t := Except.ok.inj (read.symm.trans again)
  exact Set.ext_iff.mp language w

/-- A union and a nested concatenation inside a star, with an asterisk in a choice. -/
theorem parse_pattern_matches_nested :
    let r : Regex := .star (.concat
      [.union [.lit "a", .null], .concat [.opt (.choice (.ofList ["*", "b"]))], .concat []])
    r.pattern = "((a|[])[*b]?())*" ∧ r.IsWritable ∧
      ∃ s, parse "((a|[])[*b]?())*" = .ok s ∧ ∀ A w, Matches A s w ↔ Matches A r w := by
  intro r
  have written : r.pattern = "((a|[])[*b]?())*" := by decide +kernel
  have choice : ∀ a ∈ ["*", "b"], ∃ c, c ≠ ']' ∧ a = Symbol.ofChar c := by
    intro a member
    rcases List.mem_cons.mp member with rfl | member
    · exact ⟨'*', by decide, rfl⟩
    · obtain rfl := List.mem_singleton.mp member
      exact ⟨'b', by decide, rfl⟩
  have writable : r.IsWritable :=
    ⟨⟨⟨'a', by decide, rfl⟩, trivial, trivial⟩, ⟨choice, trivial⟩, trivial, trivial⟩
  exact ⟨written, writable, written ▸ parse_pattern_matches writable⟩

end Automata.Regex
