import Automata.Regex.Tree

/-! # The grammar of patterns is unambiguous

Trees and the relations of the grammar say the same. A text has at most one tree: where an atom, a
sequence or an alternation ends is decided by the characters that may follow it.
-/

namespace Automata.Regex

/-! ### Trees and the relations of the grammar -/

theorem IsItem.applyAll {cs : List Char} {r : Regex} (qs : List Quantifier) (item : IsItem cs r) :
    IsItem (cs ++ qs.map Quantifier.character) (Quantifier.applyAll qs r) := by
  induction qs generalizing cs r with
  | nil => rwa [List.map_nil, List.append_nil]
  | cons q qs ih =>
      have next : IsItem (cs ++ [q.character]) (q.apply r) := by
        cases q with
        | star => exact .star item
        | plus => exact .plus item
        | opt => exact .opt item
      rw [List.map_cons, List.append_cons]
      exact ih next

mutual

theorem AtomTree.isAtom : ∀ a : AtomTree, IsAtom a.text a.regex
  | .any => .any
  | .literal _ plain => .literal plain
  | .choice _ inside => .choice inside
  | .group t => .group (.of t.areSequences)

theorem SequenceTree.isSequence : ∀ s : SequenceTree, IsSequence s.text s.items
  | .nil => .nil
  | .cons a qs s => by
      rw [SequenceTree.text, ← List.append_assoc]
      exact .cons (.applyAll qs (.atom a.isAtom)) s.isSequence

theorem PatternTree.areSequences : ∀ t : PatternTree, AreSequences t.text t.sequences
  | .one s => .one s.isSequence
  | .more s t => .more s.isSequence t.areSequences

end

mutual

theorem IsAtom.exists_tree : ∀ {cs : List Char} {r : Regex}, IsAtom cs r →
    ∃ a : AtomTree, a.text = cs ∧ a.regex = r
  | _, _, .any => ⟨.any, rfl, rfl⟩
  | _, _, .literal plain => ⟨.literal _ plain, rfl, rfl⟩
  | _, _, .choice inside => ⟨.choice _ inside, rfl, rfl⟩
  | _, _, .group inside => by
      obtain ⟨t, rfl, rfl⟩ := inside.exists_tree
      exact ⟨.group t, rfl, rfl⟩

theorem IsItem.exists_tree : ∀ {cs : List Char} {r : Regex}, IsItem cs r →
    ∃ (a : AtomTree) (qs : List Quantifier),
      a.text ++ qs.map Quantifier.character = cs ∧ Quantifier.applyAll qs a.regex = r
  | _, _, .atom atom => by
      obtain ⟨a, rfl, rfl⟩ := atom.exists_tree
      exact ⟨a, [], List.append_nil _, rfl⟩
  | _, _, .star item => by
      obtain ⟨a, qs, rfl, rfl⟩ := item.exists_tree
      exact ⟨a, qs ++ [.star], by simp [Quantifier.character],
        by simp [Quantifier.applyAll, Quantifier.apply]⟩
  | _, _, .plus item => by
      obtain ⟨a, qs, rfl, rfl⟩ := item.exists_tree
      exact ⟨a, qs ++ [.plus], by simp [Quantifier.character],
        by simp [Quantifier.applyAll, Quantifier.apply]⟩
  | _, _, .opt item => by
      obtain ⟨a, qs, rfl, rfl⟩ := item.exists_tree
      exact ⟨a, qs ++ [.opt], by simp [Quantifier.character],
        by simp [Quantifier.applyAll, Quantifier.apply]⟩

theorem IsSequence.exists_tree : ∀ {cs : List Char} {items : List Regex}, IsSequence cs items →
    ∃ s : SequenceTree, s.text = cs ∧ s.items = items
  | _, _, .nil => ⟨.nil, rfl, rfl⟩
  | _, _, .cons item rest => by
      obtain ⟨a, qs, rfl, rfl⟩ := item.exists_tree
      obtain ⟨s, rfl, rfl⟩ := rest.exists_tree
      exact ⟨.cons a qs s, (List.append_assoc ..).symm, rfl⟩

theorem AreSequences.exists_tree : ∀ {cs : List Char} {sequences : List (List Regex)},
    AreSequences cs sequences → ∃ t : PatternTree, t.text = cs ∧ t.sequences = sequences
  | _, _, .one sequence => by
      obtain ⟨s, rfl, rfl⟩ := sequence.exists_tree
      exact ⟨.one s, rfl, rfl⟩
  | _, _, .more sequence rest => by
      obtain ⟨s, rfl, rfl⟩ := sequence.exists_tree
      obtain ⟨t, rfl, rfl⟩ := rest.exists_tree
      exact ⟨.more s t, rfl, rfl⟩

theorem IsAlternation.exists_tree : ∀ {cs : List Char} {items : List Regex},
    IsAlternation cs items → ∃ t : PatternTree, t.text = cs ∧ t.items = items
  | _, _, .of sequences => by
      obtain ⟨t, rfl, rfl⟩ := sequences.exists_tree
      exact ⟨t, rfl, rfl⟩

end

/-- A text is an alternation if it has a tree. -/
theorem isAlternation_iff {cs : List Char} {items : List Regex} :
    IsAlternation cs items ↔ ∃ t : PatternTree, t.text = cs ∧ t.items = items := by
  constructor
  · exact IsAlternation.exists_tree
  · rintro ⟨t, rfl, rfl⟩
    exact .of t.areSequences

/-! ### Where the parts of a text end -/

/-- A text does not go on with a quantifier. -/
def EndsItem (cs : List Char) : Prop := ∀ c ∈ cs.head?, ∀ q : Quantifier, c ≠ q.character

/-- A text is at its end, at a bar or at a closing parenthesis. -/
def EndsSequence (cs : List Char) : Prop := ∀ c ∈ cs.head?, c = '|' ∨ c = ')'

/-- A text is at its end or at a closing parenthesis. -/
def EndsPattern (cs : List Char) : Prop := ∀ c ∈ cs.head?, c = ')'

/-- The character that an atom begins with. -/
def AtomTree.opening : AtomTree → Char
  | .any => '.'
  | .literal c _ => c
  | .choice _ _ => '['
  | .group _ => '('

variable {a b : AtomTree} {s : SequenceTree} {qs rs : List Quantifier} {cs ds x y : List Char}

theorem EndsPattern.sequence (ends : EndsPattern x) : EndsSequence x :=
  fun c first => .inr (ends c first)

theorem EndsSequence.item (ends : EndsSequence x) : EndsItem x := by
  intro c first q
  rcases ends c first with rfl | rfl <;> cases q <;> decide

theorem endsSequence_bar (x : List Char) : EndsSequence ('|' :: x) :=
  fun _ first => .inl (Option.some.inj first).symm

theorem AtomTree.head?_text : (a.text ++ x).head? = some a.opening := by
  cases a <;> rfl

/-- No atom begins with what ends an item or a sequence. -/
theorem AtomTree.opening_not_mem : a.opening ∉ ['*', '+', '?', '|', ')'] := by
  have within : ['*', '+', '?', '|', ')'] ⊆ operators := by decide
  cases a with
  | any => exact (by decide : '.' ∉ ['*', '+', '?', '|', ')'])
  | literal c plain => exact fun early => plain (within early)
  | choice cs inside => exact (by decide : '[' ∉ ['*', '+', '?', '|', ')'])
  | group t => exact (by decide : '(' ∉ ['*', '+', '?', '|', ')'])

theorem AtomTree.endsItem : EndsItem (a.text ++ x) := by
  rintro c first q rfl
  obtain same : a.opening = q.character := Option.some.inj (head?_text.symm.trans first)
  have early : a.opening ∉ ['*', '+', '?', '|', ')'] := opening_not_mem
  rw [same] at early
  cases q <;> exact early (by decide)

theorem AtomTree.not_endsSequence : ¬ EndsSequence (a.text ++ x) := by
  intro ends
  have late := ends a.opening head?_text
  exact opening_not_mem (a := a) (by simp [late])

theorem SequenceTree.endsItem (ends : EndsSequence x) : EndsItem (s.text ++ x) := by
  cases s with
  | nil => exact ends.item
  | cons a qs s =>
      rw [text, List.append_assoc]
      exact AtomTree.endsItem

/-! ### One tree for every text -/

theorem eq_of_append_bracket (hc : ']' ∉ cs) (hd : ']' ∉ ds)
    (same : cs ++ ']' :: x = ds ++ ']' :: y) : cs = ds ∧ x = y := by
  induction cs generalizing ds with
  | nil =>
      cases ds with
      | nil => exact ⟨rfl, (List.cons.inj same).2⟩
      | cons d ds => exact absurd (List.cons.inj same).1 fun first => hd (by simp [← first])
  | cons c cs ih =>
      cases ds with
      | nil => exact absurd (List.cons.inj same).1 fun first => hc (by simp [first])
      | cons d ds =>
          obtain ⟨rfl, rest⟩ := List.cons.inj same
          obtain ⟨rfl, rfl⟩ := ih (fun later => hc (List.mem_cons_of_mem _ later))
            (fun later => hd (List.mem_cons_of_mem _ later)) rest
          exact ⟨rfl, rfl⟩

theorem Quantifier.character_injective {q r : Quantifier} (same : q.character = r.character) :
    q = r := by
  cases q <;> cases r <;> first | rfl | exact absurd same (by decide)

theorem eq_of_append_quantifiers (hx : EndsItem x) (hy : EndsItem y)
    (same : qs.map Quantifier.character ++ x = rs.map Quantifier.character ++ y) :
    qs = rs ∧ x = y := by
  induction qs generalizing rs with
  | nil =>
      cases rs with
      | nil => exact ⟨rfl, same⟩
      | cons r rs =>
          subst same
          exact absurd rfl (hx r.character rfl r)
  | cons q qs ih =>
      cases rs with
      | nil =>
          subst same
          exact absurd rfl (hy q.character rfl q)
      | cons r rs =>
          obtain ⟨first, rest⟩ := List.cons.inj same
          obtain rfl := Quantifier.character_injective first
          obtain ⟨rfl, rfl⟩ := ih rest
          exact ⟨rfl, rfl⟩

mutual

theorem AtomTree.unique : ∀ (a b : AtomTree) {x y : List Char},
    a.text ++ x = b.text ++ y → a = b ∧ x = y
  | .choice cs hc, .choice ds hd, x, y, same => by
      simp only [AtomTree.text, List.cons_append, List.append_assoc, List.nil_append] at same
      obtain ⟨rfl, rfl⟩ := eq_of_append_bracket hc hd (List.cons.inj same).2
      exact ⟨rfl, rfl⟩
  | .group t, .group u, x, y, same => by
      simp only [AtomTree.text, List.cons_append, List.append_assoc, List.nil_append] at same
      have closes (z : List Char) : EndsPattern (')' :: z) := fun c first =>
        (Option.some.inj first).symm
      obtain ⟨rfl, rest⟩ := t.unique u (closes x) (closes y) (List.cons.inj same).2
      exact ⟨rfl, (List.cons.inj rest).2⟩
  | .any, .any, _, _, same | .literal _ _, .literal _ _, _, _, same => by
      simpa [AtomTree.text] using same
  | .literal _ plain, .any, _, _, same | .literal _ plain, .choice _ _, _, _, same
  | .literal _ plain, .group _, _, _, same => by
      obtain rfl := (List.cons.inj same).1
      exact absurd (by decide) plain
  | .any, .literal _ plain, _, _, same | .choice _ _, .literal _ plain, _, _, same
  | .group _, .literal _ plain, _, _, same => by
      obtain rfl := (List.cons.inj same).1
      exact absurd (by decide) plain
  | .any, .choice _ _, _, _, same | .any, .group _, _, _, same
  | .choice _ _, .any, _, _, same | .choice _ _, .group _, _, _, same
  | .group _, .any, _, _, same | .group _, .choice _ _, _, _, same =>
      absurd (List.cons.inj same).1 (by decide)

theorem SequenceTree.unique : ∀ (s t : SequenceTree) {x y : List Char}, EndsSequence x →
    EndsSequence y → s.text ++ x = t.text ++ y → s = t ∧ x = y
  | .nil, .nil, _, _, _, _, same => ⟨rfl, same⟩
  | .nil, .cons b rs t, x, y, hx, _, same => by
      rw [SequenceTree.text, SequenceTree.text, List.nil_append, List.append_assoc] at same
      exact absurd (same ▸ hx) AtomTree.not_endsSequence
  | .cons a qs s, .nil, x, y, _, hy, same => by
      rw [SequenceTree.text, SequenceTree.text, List.nil_append, List.append_assoc] at same
      exact absurd (same ▸ hy) AtomTree.not_endsSequence
  | .cons a qs s, .cons b rs t, x, y, hx, hy, same => by
      simp only [SequenceTree.text, List.append_assoc] at same
      obtain ⟨rfl, behind⟩ := a.unique b same
      obtain ⟨rfl, rest⟩ :=
        eq_of_append_quantifiers (SequenceTree.endsItem hx) (SequenceTree.endsItem hy) behind
      obtain ⟨rfl, rfl⟩ := s.unique t hx hy rest
      exact ⟨rfl, rfl⟩

theorem PatternTree.unique : ∀ (t u : PatternTree) {x y : List Char}, EndsPattern x →
    EndsPattern y → t.text ++ x = u.text ++ y → t = u ∧ x = y
  | .one s, .one s', x, y, hx, hy, same => by
      obtain ⟨rfl, rfl⟩ := s.unique s' hx.sequence hy.sequence same
      exact ⟨rfl, rfl⟩
  | .one s, .more s' u, x, y, hx, hy, same => by
      simp only [PatternTree.text, List.append_assoc, List.cons_append] at same
      obtain ⟨_, rfl⟩ := s.unique s' hx.sequence (endsSequence_bar _) same
      exact absurd (hx '|' rfl) (by decide)
  | .more s t, .one s', x, y, hx, hy, same => by
      simp only [PatternTree.text, List.append_assoc, List.cons_append] at same
      obtain ⟨_, rfl⟩ := s.unique s' (endsSequence_bar _) hy.sequence same
      exact absurd (hy '|' rfl) (by decide)
  | .more s t, .more s' u, x, y, hx, hy, same => by
      simp only [PatternTree.text, List.append_assoc, List.cons_append] at same
      obtain ⟨rfl, rest⟩ := s.unique s' (endsSequence_bar _) (endsSequence_bar _) same
      obtain ⟨rfl, rfl⟩ := t.unique u hx hy (List.cons.inj rest).2
      exact ⟨rfl, rfl⟩

end

/-- A text has at most one tree. -/
theorem PatternTree.text_injective : Function.Injective PatternTree.text := by
  intro t u same
  have ends : EndsPattern [] := fun c first => by cases first
  exact (t.unique u ends ends (by rw [same])).1

end Automata.Regex
