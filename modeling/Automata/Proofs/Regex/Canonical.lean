import Automata.Proofs.NFA.Supply

/-! # Patterns as they are printed

What is printed for an expression that was read is canonical: reading it and printing what has been
read changes no character. The second expression need not be the first one, since groups around
sequences are opened and nested alternations are flattened, but it is printed alike, alone and
inside of other expressions. Compilation does not tell a pattern from its canonical form.
-/

namespace Automata

namespace Regex

variable {r s : Regex} {l items : List Regex} {sequences : List (List Regex)} {cs : List Char}

/-! ### Printing alike -/

/-- Two expressions are written alike and are put into parentheses in the same places. -/
structure PrintedAlike (r s : Regex) : Prop where
  written : r.written = s.written
  isAlternation : r.isAlternation = s.isAlternation
  isCompound : r.isCompound = s.isCompound

theorem PrintedAlike.refl (r : Regex) : PrintedAlike r r := ⟨rfl, rfl, rfl⟩

theorem PrintedAlike.star (h : PrintedAlike r s) : PrintedAlike (.star r) (.star s) :=
  ⟨by simp [Regex.written, h.written, h.isCompound], rfl, rfl⟩

theorem PrintedAlike.plus (h : PrintedAlike r s) : PrintedAlike (.plus r) (.plus s) :=
  ⟨by simp [Regex.written, h.written, h.isCompound], rfl, rfl⟩

theorem PrintedAlike.opt (h : PrintedAlike r s) : PrintedAlike (.opt r) (.opt s) :=
  ⟨by simp [Regex.written, h.written, h.isCompound], rfl, rfl⟩

/-- A concatenation of a single part is printed like the part. -/
theorem PrintedAlike.singleton (h : PrintedAlike r s) : PrintedAlike (.concat [r]) s :=
  ⟨h.written, h.isAlternation, h.isCompound⟩

theorem isCompound_of_isAlternation (several : r.isAlternation = true) : r.isCompound = true := by
  fun_induction isAlternation r with
  | case1 parts => rfl
  | case2 r ih => exact ih several
  | case3 r other single => cases several

theorem isAlternation_of_simple (simple : r.isCompound = false) : r.isAlternation = false := by
  cases several : r.isAlternation with
  | false => rfl
  | true => simp [isCompound_of_isAlternation several] at simple

/-! ### Reading what is printed

The three notions follow the levels of the grammar. A sequence is also compared factor by factor,
so that several of them can be put together. -/

/-- A text is an item that is printed like an expression. -/
def ReprintsItem (cs : List Char) (r : Regex) : Prop := ∃ e, IsItem cs e ∧ PrintedAlike e r

/-- A text is a sequence that is printed like an expression. -/
def ReprintsSequence (cs : List Char) (r : Regex) : Prop :=
  ∃ items, IsSequence cs items ∧ items ≠ [] ∧ writtenFactors items = cs ∧
    PrintedAlike (.concat items) r

/-- A text is an alternation that is printed like an expression. -/
def ReprintsAlternation (cs : List Char) (r : Regex) : Prop :=
  ∃ sequences, AreSequences cs sequences ∧ PrintedAlike (.concat (joined sequences)) r

/-- What is printed for an expression can be read, as tightly as the printer assumes, and what is
    read is printed alike. -/
structure Reprints (r : Regex) : Prop where
  alternation : ReprintsAlternation r.written r
  sequence : r.isAlternation = false → ReprintsSequence r.written r
  item : r.isCompound = false → ReprintsItem r.written r

theorem ReprintsItem.sequence (h : ReprintsItem (grouped r.isAlternation r.written) r) :
    ReprintsSequence (grouped r.isAlternation r.written) r := by
  obtain ⟨e, item, alike⟩ := h
  refine ⟨[e], item.sequence, by simp, ?_, alike.singleton⟩
  simp [writtenFactors, alike.written, alike.isAlternation]

theorem ReprintsSequence.alternation (h : ReprintsSequence cs r) : ReprintsAlternation cs r := by
  obtain ⟨items, sequence, _, _, alike⟩ := h
  exact ⟨[items], .one sequence, alike⟩

/-- In parentheses an alternation is an item. -/
theorem ReprintsAlternation.group (h : ReprintsAlternation cs r) :
    ReprintsItem ('(' :: cs ++ [')']) r := by
  obtain ⟨sequences, alternation, alike⟩ := h
  exact ⟨_, .atom (.group (.of alternation)), alike⟩

theorem ReprintsItem.reprints (h : ReprintsItem r.written r) (simple : r.isCompound = false) :
    Reprints r := by
  have single := isAlternation_of_simple simple
  have ungrouped : grouped r.isAlternation r.written = r.written := by simp [grouped, single]
  have sequence : ReprintsSequence r.written r :=
    ungrouped ▸ ReprintsItem.sequence (ungrouped.symm ▸ h)
  exact ⟨sequence.alternation, fun _ => sequence, fun _ => h⟩

theorem ReprintsSequence.reprints (h : ReprintsSequence r.written r)
    (compound : r.isCompound = true) : Reprints r :=
  ⟨h.alternation, fun _ => h, fun simple => by simp [compound] at simple⟩

theorem ReprintsAlternation.reprints (h : ReprintsAlternation r.written r)
    (several : r.isAlternation = true) : Reprints r :=
  ⟨h, fun single => by simp [several] at single,
    fun simple => by simp [isCompound_of_isAlternation several] at simple⟩

theorem Reprints.factor (h : Reprints r) :
    ReprintsSequence (grouped r.isAlternation r.written) r := by
  cases single : r.isAlternation with
  | false => exact h.sequence single
  | true =>
      have item : ReprintsItem (grouped r.isAlternation r.written) r := by
        simpa [grouped, single] using h.alternation.group
      exact single ▸ item.sequence

theorem Reprints.base (h : Reprints r) : ReprintsItem (grouped r.isCompound r.written) r := by
  cases simple : r.isCompound with
  | false => exact h.item simple
  | true => exact h.alternation.group

theorem Reprints.star (h : Reprints r) : Reprints (.star r) := by
  obtain ⟨e, item, alike⟩ := h.base
  exact ReprintsItem.reprints ⟨_, .star item, alike.star⟩ rfl

theorem Reprints.plus (h : Reprints r) : Reprints (.plus r) := by
  obtain ⟨e, item, alike⟩ := h.base
  exact ReprintsItem.reprints ⟨_, .plus item, alike.plus⟩ rfl

theorem Reprints.opt (h : Reprints r) : Reprints (.opt r) := by
  obtain ⟨e, item, alike⟩ := h.base
  exact ReprintsItem.reprints ⟨_, .opt item, alike.opt⟩ rfl

/-! ### Concatenations -/

theorem writtenFactors_append :
    writtenFactors (l ++ items) = writtenFactors l ++ writtenFactors items := by
  induction l with
  | nil => rfl
  | cons r l ih => simp [writtenFactors, ih]

/-- Concatenations of several parts are printed alike if their factors are. -/
theorem printedAlike_concat (factors : writtenFactors items = writtenFactors l)
    (several : 2 ≤ items.length) (several' : 2 ≤ l.length) :
    PrintedAlike (.concat items) (.concat l) := by
  match items, l, several, several' with
  | _ :: _ :: _, _ :: _ :: _, _, _ => exact ⟨factors, rfl, rfl⟩

/-- The factors of a list can be read one after the other. Each of them gives an item at least. -/
theorem reprints_factors (parts : ∀ r ∈ l, Reprints r) :
    ∃ items, IsSequence (writtenFactors l) items ∧ writtenFactors items = writtenFactors l ∧
      l.length ≤ items.length := by
  induction l with
  | nil => exact ⟨[], .nil, rfl, Nat.le_refl _⟩
  | cons r l ih =>
      obtain ⟨items, first, known, same, _⟩ := (parts r List.mem_cons_self).factor
      obtain ⟨more, rest, same', enough⟩ :=
        ih fun s member => parts s (List.mem_cons_of_mem r member)
      refine ⟨items ++ more, first.append rest, ?_, ?_⟩
      · rw [writtenFactors_append, same, same', writtenFactors]
      · have := List.length_pos_iff.mpr known
        simp
        omega

theorem reprints_concat_nil : Reprints (.concat []) := by
  have empty : ReprintsItem ['(', ')'] (.concat []) :=
    ⟨_, .atom (.group isAlternation_nil), .refl _⟩
  exact (ReprintsItem.sequence (r := .concat []) empty).reprints rfl

theorem Reprints.concat_singleton (h : Reprints r) : Reprints (.concat [r]) where
  alternation := by
    obtain ⟨sequences, alternation, alike⟩ := h.alternation
    exact ⟨sequences, alternation, alike.written, alike.isAlternation, alike.isCompound⟩
  sequence single := by
    obtain ⟨items, sequence, known, same, alike⟩ := h.sequence single
    exact ⟨items, sequence, known, same, alike.written, alike.isAlternation, alike.isCompound⟩
  item simple := by
    obtain ⟨e, item, alike⟩ := h.item simple
    exact ⟨e, item, alike.written, alike.isAlternation, alike.isCompound⟩

theorem reprints_concat (parts : ∀ r ∈ l, Reprints r) : Reprints (.concat l) := by
  match l, parts with
  | [], _ => exact reprints_concat_nil
  | [r], parts => exact (parts r List.mem_cons_self).concat_singleton
  | r :: s :: l, parts =>
      obtain ⟨items, sequence, same, enough⟩ := reprints_factors parts
      have several : 2 ≤ items.length := Nat.le_trans (by simp) enough
      have alike := printedAlike_concat same several (by simp)
      have known : items ≠ [] := List.length_pos_iff.mp (by omega)
      exact ReprintsSequence.reprints ⟨items, sequence, known, same, alike⟩ rfl

/-! ### Alternations -/

/-- The bar between two alternations is as good as the bars inside of them. -/
theorem written_union_append (first : l ≠ []) (second : items ≠ []) :
    (union (l ++ items)).written = (union l).written ++ '|' :: (union items).written := by
  have later : ∀ l : List Regex, writtenAlternatives (l ++ items) =
      writtenAlternatives l ++ '|' :: (union items).written := by
    intro l
    induction l with
    | nil =>
        cases items with
        | nil => exact absurd rfl second
        | cons r items => rfl
    | cons r l ih => simp [writtenAlternatives, ih]
  cases l with
  | nil => exact absurd rfl first
  | cons r l => simp [written, later]

/-- A group is printed like the union of its sequences, also if it has only one. -/
theorem written_joined :
    (concat (joined sequences)).written = (union (sequences.map concat)).written := by
  match sequences with
  | [] => rfl
  | [items] => exact (List.append_nil _).symm
  | _ :: _ :: _ => rfl

theorem AreSequences.ne_nil (h : AreSequences cs sequences) : sequences ≠ [] := by
  cases h <;> simp

/-- The alternatives of a union can be read one after the other. Each of them gives a sequence at
    least, and several if it is an alternation itself. -/
theorem reprints_alternatives (parts : ∀ s ∈ r :: l, Reprints s) :
    ∃ sequences, AreSequences (union (r :: l)).written sequences ∧
      (union (sequences.map concat)).written = (union (r :: l)).written ∧
      (r :: l).length ≤ sequences.length := by
  induction l generalizing r with
  | nil =>
      obtain ⟨sequences, alternation, alike⟩ := (parts r List.mem_cons_self).alternation
      have alone : (union [r]).written = r.written := List.append_nil _
      rw [alone]
      refine ⟨sequences, alternation, written_joined.symm.trans alike.written, ?_⟩
      exact List.length_pos_iff.mpr alternation.ne_nil
  | cons s l ih =>
      obtain ⟨sequences, first, alike⟩ := (parts r List.mem_cons_self).alternation
      obtain ⟨more, rest, same, enough⟩ :=
        ih fun t member => parts t (List.mem_cons_of_mem r member)
      have cut : (union (r :: s :: l)).written = r.written ++ '|' :: (union (s :: l)).written := rfl
      rw [cut]
      refine ⟨sequences ++ more, first.append rest, ?_, ?_⟩
      · rw [List.map_append, written_union_append (by simpa using first.ne_nil)
          (by simpa using rest.ne_nil), same, ← written_joined, alike.written]
      · have := List.length_pos_iff.mpr first.ne_nil
        simp at enough ⊢
        omega

theorem reprints_union (several : 2 ≤ l.length) (parts : ∀ r ∈ l, Reprints r) :
    Reprints (.union l) := by
  match l, several, parts with
  | r :: s :: l, _, parts =>
      obtain ⟨sequences, alternation, same, enough⟩ := reprints_alternatives parts
      refine ReprintsAlternation.reprints ⟨sequences, alternation, ?_⟩ rfl
      match sequences, enough with
      | _ :: _ :: _, _ => exact ⟨same, rfl, rfl⟩

theorem reprints_joined (known : sequences ≠ [])
    (parts : ∀ items ∈ sequences, Reprints (.concat items)) :
    Reprints (.concat (joined sequences)) := by
  match sequences, known, parts with
  | [items], _, parts => exact parts items List.mem_cons_self
  | first :: second :: others, _, parts =>
      refine Reprints.concat_singleton (reprints_union (by simp) fun r member => ?_)
      obtain ⟨items, inside, rfl⟩ := List.mem_map.mp member
      exact parts items inside

/-! ### What has been read -/

mutual

/-- By induction over the grammar: whatever a text stands for is printed as a text that is read
    and printed alike. -/
theorem IsAtom.reprints : ∀ {cs : List Char} {r : Regex}, IsAtom cs r → Reprints r
  | _, _, .any => ReprintsItem.reprints ⟨_, .atom .any, .refl _⟩ rfl
  | _, _, @IsAtom.literal c plain => by
      refine ReprintsItem.reprints ⟨_, ?_, .refl _⟩ rfl
      simpa [written] using IsItem.atom (.literal plain)
  | _, _, @IsAtom.choice cs plain =>
      have letters := (IsAtom.choice plain).isWritable
      ReprintsItem.reprints ⟨_, .atom (isAtom_choice letters), .refl _⟩ rfl
  | _, _, .group inside => inside.reprints

theorem IsItem.reprints : ∀ {cs : List Char} {r : Regex}, IsItem cs r → Reprints r
  | _, _, .atom h => h.reprints
  | _, _, .star h => h.reprints.star
  | _, _, .plus h => h.reprints.plus
  | _, _, .opt h => h.reprints.opt

theorem IsSequence.reprints : ∀ {cs : List Char} {items : List Regex}, IsSequence cs items →
    ∀ r ∈ items, Reprints r
  | _, _, .nil => fun _ member => absurd member List.not_mem_nil
  | _, _, .cons first rest => List.forall_mem_cons.mpr ⟨first.reprints, rest.reprints⟩

theorem AreSequences.reprints : ∀ {cs : List Char} {sequences : List (List Regex)},
    AreSequences cs sequences → ∀ items ∈ sequences, Reprints (.concat items)
  | _, _, .one h => List.forall_mem_singleton.mpr (reprints_concat h.reprints)
  | _, _, .more first rest =>
      List.forall_mem_cons.mpr ⟨reprints_concat first.reprints, rest.reprints⟩

theorem IsAlternation.reprints : ∀ {cs : List Char} {items : List Regex}, IsAlternation cs items →
    Reprints (.concat items)
  | _, _, .of h => reprints_joined h.ne_nil h.reprints

end

theorem written_ofItems : (ofItems items).written = (concat items).written := by
  match items with
  | [] | [_] | _ :: _ :: _ => rfl

theorem isWritable_ofItems : (ofItems items).IsWritable ↔ AreWritable items := by
  match items with
  | [] => simp [ofItems, IsWritable, AreWritable]
  | [r] => simp [ofItems, AreWritable]
  | _ :: _ :: _ => exact Iff.rfl

variable {p : String}

theorem isAlternation_of_parse (parsed : parse p = .ok r) :
    ∃ items, IsAlternation p.toList items ∧ r = ofItems items := by
  rw [parse_eq] at parsed
  cases read : parseItems p with
  | error e => simp [read, Except.map] at parsed
  | ok items =>
      rw [read] at parsed
      exact ⟨items, parseItems_eq_ok.mp read, (Except.ok.inj parsed).symm⟩

theorem isWritable_of_parse (parsed : parse p = .ok r) : r.IsWritable := by
  obtain ⟨items, alternation, rfl⟩ := isAlternation_of_parse parsed
  exact isWritable_ofItems.mpr alternation.areWritable

/-- Printing what a pattern stands for, reading that and printing it again changes nothing. -/
theorem pattern_stable (parsed : parse p = .ok r) :
    ∃ s, parse r.pattern = .ok s ∧ s.pattern = r.pattern := by
  obtain ⟨items, alternation, rfl⟩ := isAlternation_of_parse parsed
  obtain ⟨sequences, again, alike⟩ := alternation.reprints.alternation
  refine ⟨ofItems (joined sequences), ?_, ?_⟩
  · rw [pattern, written_ofItems]
    exact parse_ok (.of again)
  · rw [pattern, pattern, written_ofItems, written_ofItems, alike.written]

end Regex

namespace NFA

/-- Compiles a pattern over what is given for an alphabet. -/
def compileOver (given : Except Error Alphabet) (pattern : String) (simplified : Bool) :
    Building NFA := do
  compile (← Building.check given) pattern simplified

/-- Two results are automata that accept the same words, or errors of the same kind. -/
inductive AcceptAlike : Except Error NFA → Except Error NFA → Prop where
  | ok {m n : NFA} : (∀ word, m.accepts word = n.accepts word) → AcceptAlike (.ok m) (.ok n)
  | error {e f : Error} : e.kind = f.kind → AcceptAlike (.error e) (.error f)

variable {A : Alphabet} {p q : String} {r s : Regex} {a b : Allocator}

theorem compile_foreign (parsed : Regex.parse p = .ok r) (foreign : ¬ r.IsOver A)
    (endless : a.largest = none) (simplified : Bool) :
    ∃ e, ((compile A p simplified).runFrom a).1 = .error e ∧ e.kind = .alphabet := by
  rcases compile_of_parse A simplified a parsed with ⟨_, covered, _⟩ | ⟨failed, _⟩ | ⟨_, lacking⟩
  · exact absurd covered foreign
  · exact failed
  · exact absurd (Building.supplies_of_endless endless _) lacking

/-- Patterns of the same meaning compile alike. -/
theorem compile_acceptAlike (parsed : Regex.parse p = .ok r) (parsed' : Regex.parse q = .ok s)
    (language : s.language A = r.language A) (isOver : s.IsOver A ↔ r.IsOver A)
    (endless : a.largest = none) (endless' : b.largest = none) (simplified : Bool) :
    AcceptAlike ((compile A p simplified).runFrom a).1 ((compile A q simplified).runFrom b).1 := by
  by_cases covered : r.IsOver A
  · obtain ⟨m, c, run, alphabet, accepted⟩ :=
      compile_ok parsed covered endless simplified
    obtain ⟨n, d, run', alphabet', accepted'⟩ :=
      compile_ok parsed' (isOver.mpr covered) endless' simplified
    rw [run, run']
    refine .ok fun word => accepts_congr (alphabet.trans alphabet'.symm) ?_
    rw [accepted, accepted', language]
  · obtain ⟨e, failure, kind⟩ := compile_foreign parsed covered endless simplified
    obtain ⟨f, failure', kind'⟩ :=
      compile_foreign parsed' (mt isOver.mp covered) endless' simplified
    rw [failure, failure']
    exact .error (kind.trans kind'.symm)

/-- A pattern that can be read has a canonical form, which is what is printed for it: it can be
    read, and printing that changes nothing more. Over whatever is given for an alphabet the two
    patterns compile to automata that accept the same words, or fail with errors of the same
    kind. -/
theorem pattern_canonical (p : String) (r : Regex) (parsed : Regex.parse p = .ok r) :
    (∃ s, Regex.parse r.pattern = .ok s ∧ s.pattern = r.pattern) ∧
      ∀ (given : Except Error Alphabet) (simplified : Bool) (a b : Allocator),
        a.largest = none → b.largest = none →
        AcceptAlike ((compileOver given p simplified).runFrom a).1
          ((compileOver given r.pattern simplified).runFrom b).1 := by
  refine ⟨Regex.pattern_stable parsed, fun given simplified a b endless endless' => ?_⟩
  cases given with
  | error e => exact .error rfl
  | ok A =>
      have readable := Regex.isReadable_of_isWritable A r (Regex.isWritable_of_parse parsed)
      obtain ⟨s, parsed', language, isOver⟩ := Regex.parse_pattern readable
      exact compile_acceptAlike parsed parsed' language isOver endless endless' simplified

/-- A group is opened, a nested alternation is flattened, a choice is sorted, and parentheses are
    added around what is empty. -/
theorem pattern_canonical_groups :
    let A : Alphabet := ⟨.ofList ['a', 'b'], by decide, by decide⟩
    ∃ r, Regex.parse "(a|(b|[ba]))()*(ab)" = .ok r ∧ r.pattern = "(a|b|[ab])(())*ab" ∧
      (∃ s, Regex.parse "(a|b|[ab])(())*ab" = .ok s ∧ s.pattern = "(a|b|[ab])(())*ab") ∧
      AcceptAlike ((compileOver (.ok A) "(a|(b|[ba]))()*(ab)" true).runFrom {}).1
        ((compileOver (.ok A) "(a|b|[ab])(())*ab" true).runFrom {}).1 := by
  intro A
  have printed : (Regex.parse "(a|(b|[ba]))()*(ab)").map Regex.pattern =
      .ok "(a|b|[ab])(())*ab" := by decide +kernel
  cases parsed : Regex.parse "(a|(b|[ba]))()*(ab)" with
  | error e => simp [parsed, Except.map] at printed
  | ok r =>
      have same : r.pattern = "(a|b|[ab])(())*ab" := by simpa [parsed, Except.map] using printed
      obtain ⟨stable, compiles⟩ := pattern_canonical _ r parsed
      rw [same] at stable compiles
      have alike := compiles (.ok A) true {} {} rfl rfl
      exact ⟨r, rfl, same, stable, alike⟩

end NFA

end Automata
