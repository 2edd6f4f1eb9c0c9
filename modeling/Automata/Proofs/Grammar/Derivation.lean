import Automata.Grammar.Derivation

/-! # Leftmost derivations

Expansions at different places do not get in each other's way, so a word that is derived in some
order is also spelled from left to right, the leftmost nonterminal being expanded each time.
-/

namespace Automata.Grammar

/-- The leftmost nonterminal is expanded until a word is spelled. -/
inductive Spells (g : Grammar) : List Element → List Char → Prop where
  | nil : Spells g [] []
  | terminal {c : Char} {es : List Element} {w : List Char} :
      Spells g es w → Spells g (.terminal c :: es) (c :: w)
  | nonterminal {name : String} {output : Form} {es : List Element} {w : List Char} :
      output ∈ g.outputs name → Spells g (output.elements ++ es) w →
        Spells g (.nonterminal name :: es) w

variable {g : Grammar} {f h : Form} {name : String} {output : Form} {es fs : List Element}
  {u v w : List Char}

theorem mem_outputs : output ∈ g.outputs name ↔ ⟨name, output⟩ ∈ g.productions := by
  rw [outputs, SortedSet.mem_ofList, List.mem_map]
  constructor
  · intro ⟨p, member, same⟩
    obtain ⟨production, head⟩ := List.mem_filter.mp member
    obtain rfl : p.head = name := of_decide_eq_true head
    subst same
    exact production
  · intro production
    exact ⟨⟨name, output⟩, List.mem_filter.mpr ⟨production, by simp⟩, rfl⟩

theorem mem_productions_foldl_add {l : List Production} {p : Production} :
    p ∈ (l.foldl add g).productions ↔ p ∈ g.productions ∨ p ∈ l := by
  induction l generalizing g with
  | nil => simp
  | cons q l ih =>
      rw [List.foldl_cons, ih]
      simp [add, or_assoc, or_left_comm]

theorem mem_expandAt {i : Nat} :
    h ∈ g.expandAt f i ↔
      ∃ name, f.elements[i]? = some (.nonterminal name) ∧ ∃ output ∈ g.outputs name,
        h = ⟨f.elements.take i ++ output.elements ++ f.elements.drop (i + 1)⟩ := by
  rw [expandAt, Form.nonterminalAt?]
  cases found : f.elements[i]? with
  | none => simp [SortedSet.not_mem_empty]
  | some e =>
      cases e with
      | terminal c => simp [SortedSet.not_mem_empty]
      | nonterminal name =>
          have inside := (List.getElem?_eq_some_iff.mp found).1
          have before : f.clamp i = i := by
            simp only [Form.clamp]
            omega
          have after : f.clamp (i + 1) = i + 1 := by
            simp only [Form.clamp]
            omega
          simp only [SortedSet.mem_map, Form.replace, before, after, Option.some.injEq,
            Element.nonterminal.injEq, exists_eq_left', eq_comm]

/-- An expansion replaces one nonterminal by one of its outputs. -/
theorem mem_expand :
    h ∈ g.expand f ↔
      ∃ es name fs, f.elements = es ++ .nonterminal name :: fs ∧
        ∃ output ∈ g.outputs name, h.elements = es ++ output.elements ++ fs := by
  rw [expand, SortedSet.mem_unions]
  constructor
  · intro ⟨results, position, member⟩
    obtain ⟨i, _, rfl⟩ := List.mem_map.mp position
    obtain ⟨name, found, output, produced, rfl⟩ := mem_expandAt.mp member
    obtain ⟨_, found⟩ := List.getElem?_eq_some_iff.mp found
    have split :
        f.elements = f.elements.take i ++ .nonterminal name :: f.elements.drop (i + 1) := by
      rw [← found, List.getElem_cons_drop, List.take_append_drop]
    exact ⟨_, name, _, split, output, produced, rfl⟩
  · intro ⟨es, name, fs, split, output, produced, same⟩
    have inside : es.length < f.elements.length := by simp [split]
    have found : f.elements[es.length]? = some (.nonterminal name) := by simp [split]
    have result : h = ⟨f.elements.take es.length ++ output.elements ++
        f.elements.drop (es.length + 1)⟩ := by
      cases h
      simp [split, ← same]
    exact ⟨_, List.mem_map.mpr ⟨es.length, List.mem_range.mpr inside, rfl⟩,
      mem_expandAt.mpr ⟨name, found, output, produced, result⟩⟩

/-- A grammar with more outputs derives no less. -/
theorem Derives.mono {g' : Grammar}
    (outputs : ∀ name, ∀ output ∈ g.outputs name, output ∈ g'.outputs name)
    (derived : g.Derives f h) : g'.Derives f h := by
  induction derived with
  | refl => exact .refl
  | step expanded _ ih =>
      obtain ⟨es, name, fs, split, output, produced, result⟩ := mem_expand.mp expanded
      exact .step (mem_expand.mpr ⟨es, name, fs, split, output, outputs _ _ produced, result⟩) ih

/-- An element of a derived form is there from the start or is put there by a production. -/
theorem Derives.mem_elements (derived : g.Derives f h) : ∀ e ∈ h.elements,
    e ∈ f.elements ∨ ∃ p ∈ g.productions, e ∈ p.output.elements := by
  induction derived with
  | refl => exact fun e member => .inl member
  | step expanded _ ih =>
      intro e member
      obtain ⟨es, name, fs, split, output, produced, result⟩ := mem_expand.mp expanded
      obtain member | produced := ih e member
      · rw [result, List.mem_append, List.mem_append] at member
        rw [split, List.mem_append, List.mem_cons]
        obtain (member | member) | member := member
        · exact .inl (.inl member)
        · exact .inr ⟨_, mem_outputs.mp produced, member⟩
        · exact .inl (.inr (.inr member))
      · exact .inr produced

/-- A terminal in front stays where it is. -/
theorem Derives.of_terminal {a : Char} (derived : g.Derives ⟨.terminal a :: es⟩ h) :
    ∃ fs, h = ⟨.terminal a :: fs⟩ ∧ g.Derives ⟨es⟩ ⟨fs⟩ := by
  generalize first : Form.mk (.terminal a :: es) = f at derived
  induction derived generalizing es with
  | refl => exact ⟨es, first.symm, .refl⟩
  | @step f h k expanded _ ih =>
      subst first
      obtain ⟨ds, name, fs, split, output, produced, result⟩ := mem_expand.mp expanded
      cases ds with
      | nil => cases split
      | cons d ds =>
          obtain ⟨rfl, rfl⟩ := List.cons.inj split
          have same : Form.mk (.terminal a :: (ds ++ output.elements ++ fs)) = h := by
            cases h
            exact congrArg Form.mk result.symm
          obtain ⟨fs', rfl, rest⟩ := ih same
          exact ⟨fs', rfl, .step (mem_expand.mpr ⟨ds, name, fs, rfl, output, produced, rfl⟩) rest⟩

/-! ### Spelling from left to right -/

theorem Spells.append (first : g.Spells es u) (second : g.Spells fs v) :
    g.Spells (es ++ fs) (u ++ v) := by
  induction first with
  | nil => exact second
  | terminal _ ih => exact .terminal ih
  | nonterminal produced _ ih => exact .nonterminal produced (List.append_assoc .. ▸ ih)

theorem Spells.split (spelled : g.Spells (es ++ fs) w) :
    ∃ u v, w = u ++ v ∧ g.Spells es u ∧ g.Spells fs v := by
  generalize whole : es ++ fs = gs at spelled
  induction spelled generalizing es with
  | nil =>
      obtain ⟨rfl, rfl⟩ := List.append_eq_nil_iff.mp whole
      exact ⟨[], [], rfl, .nil, .nil⟩
  | @terminal c gs w rest ih =>
      cases es with
      | nil =>
          obtain rfl : fs = .terminal c :: gs := whole
          exact ⟨[], _, rfl, .nil, .terminal rest⟩
      | cons e es =>
          obtain ⟨rfl, rfl⟩ := List.cons.inj whole
          obtain ⟨u, v, rfl, first, second⟩ := ih rfl
          exact ⟨c :: u, v, rfl, .terminal first, second⟩
  | @nonterminal name output gs w produced rest ih =>
      cases es with
      | nil =>
          obtain rfl : fs = .nonterminal name :: gs := whole
          exact ⟨[], _, rfl, .nil, .nonterminal produced rest⟩
      | cons e es =>
          obtain ⟨rfl, rfl⟩ := List.cons.inj whole
          obtain ⟨u, v, rfl, first, second⟩ := ih (List.append_assoc ..)
          exact ⟨u, v, rfl, .nonterminal produced first, second⟩

theorem spells_terminals : ∀ w : List Char, g.Spells (w.map .terminal) w
  | [] => .nil
  | _ :: w => .terminal (spells_terminals w)

/-- An expansion anywhere in front is made up for by expanding from left to right. -/
theorem Spells.of_expand (expanded : h ∈ g.expand f) (spelled : g.Spells h.elements w) :
    g.Spells f.elements w := by
  obtain ⟨es, name, fs, split, output, produced, result⟩ := mem_expand.mp expanded
  rw [result, List.append_assoc] at spelled
  obtain ⟨u, v, rfl, first, second⟩ := spelled.split
  rw [split]
  exact first.append (.nonterminal produced second)

theorem Derives.cons (e : Element) (derived : g.Derives f h) :
    g.Derives ⟨e :: f.elements⟩ ⟨e :: h.elements⟩ := by
  induction derived with
  | refl => exact .refl
  | step expanded _ ih =>
      obtain ⟨es, name, fs, split, output, produced, result⟩ := mem_expand.mp expanded
      refine .step (mem_expand.mpr ⟨e :: es, name, fs, ?_, output, produced, ?_⟩) ih
      · rw [split, List.cons_append]
      · rw [result, List.cons_append, List.cons_append]

theorem Spells.derives (spelled : g.Spells es w) : g.Derives ⟨es⟩ (.ofWord w) := by
  induction spelled with
  | nil => exact .refl
  | @terminal c es w _ ih => exact ih.cons (.terminal c)
  | @nonterminal name output es w produced _ ih =>
      exact .step (mem_expand.mpr ⟨[], name, es, rfl, output, produced, rfl⟩) ih

theorem Derives.spells (derived : g.Derives f h) (spelled : g.Spells h.elements w) :
    g.Spells f.elements w := by
  induction derived with
  | refl => exact spelled
  | step expanded _ ih => exact (ih spelled).of_expand expanded

/-- Expansions in any order derive the words that are spelled from left to right. -/
theorem derives_iff_spells : g.Derives f (.ofWord w) ↔ g.Spells f.elements w :=
  ⟨fun derived => derived.spells (spells_terminals w), Spells.derives⟩

end Automata.Grammar
