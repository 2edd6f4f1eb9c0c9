import Automata.Regex.Characters
import Automata.Regex.Reader

/-! # Reading what the grammar allows

The reader keeps the items of the innermost group in a frame. A text of the grammar adds to that
frame what it stands for, whatever is already there and whatever groups are open around it.
-/

namespace Automata.Regex.Reader

/-- Reads characters one after the other. -/
def readAll (pattern : String) (r : Reader) (cs : List Char) : Except Error Reader :=
  cs.foldlM (read pattern) r

/-- The reader after some characters, with another innermost group. -/
def after (r : Reader) (cs : List Char) (f : Frame) : Reader :=
  { r with position := r.position + cs.length, frame := f }

variable {pattern : String} {r s : Reader} {c : Char} {cs ds : List Char} {f g : Frame}

theorem readAll_append (first : readAll pattern r cs = .ok s) :
    readAll pattern r (cs ++ ds) = readAll pattern s ds := by
  rw [readAll] at first
  rw [readAll, List.foldlM_append, first]
  rfl

theorem readAll_cons (first : read pattern r c = .ok s) :
    readAll pattern r (c :: cs) = readAll pattern s cs := by
  rw [readAll, List.foldlM_cons, first]
  rfl

theorem read_outside (outside : r.choice = none) : read pattern r c = r.readItem pattern c := by
  rw [read, outside]

theorem after_after : (r.after cs f).after ds g = r.after (cs ++ ds) g := by
  simp [after, Nat.add_assoc]

/-! ### Single characters -/

theorem readItem_literal (plain : c ∉ operators) :
    r.readItem pattern c = .ok (r.after [c] (r.frame.push (.lit (String.singleton c)))) := by
  simp only [operators, List.mem_cons, List.not_mem_nil, or_false, not_or] at plain
  have single : quantifier? c = none := by
    unfold quantifier?
    split <;> simp_all
  unfold readItem
  simp only [single]
  split <;> first | rfl | simp at plain

theorem read_quantifier {quantify : Regex → Regex} {e : Regex} (outside : r.choice = none)
    (stands : quantifier? c = some quantify) :
    read pattern (r.after cs (f.push e)) c = .ok (r.after (cs ++ [c]) (f.push (quantify e))) := by
  rw [read_outside (r := r.after cs (f.push e)) outside]
  unfold readItem
  rw [stands, ← after_after]
  rfl

/-- Inside brackets every character but the closing one belongs to the choice. -/
theorem readAll_inside {known : List Char} (inside : r.choice = some known) (plain : ']' ∉ cs) :
    readAll pattern r cs =
      .ok { r.after cs r.frame with choice := some (cs.reverse ++ known) } := by
  induction cs generalizing r known with
  | nil =>
      rw [List.reverse_nil, List.nil_append, ← inside]
      rfl
  | cons c cs ih =>
      rw [List.mem_cons, not_or] at plain
      have next : read pattern r c =
          .ok { r.after [c] r.frame with choice := some (c :: known) } := by
        simp only [read, inside, readChoice, if_neg (Ne.symm plain.1)]
        rfl
      rw [readAll_cons next, ih rfl plain.2]
      simp [after, Nat.add_assoc, Nat.add_comm 1]

/-- The closing bracket makes an item of the choice. -/
theorem readAll_choice {known : List Char} (inside : r.choice = some known) (plain : ']' ∉ cs) :
    readAll pattern r (cs ++ [']']) = .ok { r.after (cs ++ [']'])
      (r.frame.push (.choice (.ofList ((cs.reverse ++ known).map Symbol.ofChar))))
      with choice := none } := by
  have closing : read pattern
      { r.after cs r.frame with choice := some (cs.reverse ++ known) } ']' =
        .ok { r.after (cs ++ [']'])
          (r.frame.push (.choice (.ofList ((cs.reverse ++ known).map Symbol.ofChar))))
          with choice := none } := by
    rw [← after_after (f := r.frame)]
    rfl
  rw [readAll_append (readAll_inside inside plain), readAll_cons closing]
  rfl

/-! ### Texts of the grammar -/

theorem parts_eq_joined {sequences : List (List Regex)}
    (alternatives : f.bar.alternatives = (sequences.map Regex.concat).reverse) :
    f.parts = joined sequences := by
  have reversed : f.bar.alternatives.reverse = sequences.map Regex.concat := by
    rw [alternatives, List.reverse_reverse]
  cases earlier : f.alternatives with
  | nil =>
      have only : sequences.map Regex.concat = [.concat f.items.reverse] := by
        rw [← reversed, Frame.bar, earlier]
        rfl
      obtain ⟨items, rfl, same⟩ := List.map_eq_singleton_iff.mp only
      rw [Frame.parts, earlier]
      exact (Regex.concat.inj same).symm
  | cons e l =>
      have several : sequences.length = l.length + 2 := by
        rw [← List.length_map, ← reversed, Frame.bar, earlier]
        simp
      rw [Frame.parts, earlier, reversed]
      match sequences, several with
      | _ :: _ :: _, _ => rfl

mutual

theorem reads_atom : ∀ {cs : List Char} {e : Regex}, IsAtom cs e → ∀ r : Reader,
    r.choice = none → readAll pattern r cs = .ok (r.after cs (r.frame.push e))
  | _, _, .any, r, outside => by
      rw [readAll_cons (read_outside outside)]
      rfl
  | _, _, .literal plain, r, outside => by
      rw [readAll_cons ((read_outside outside).trans (readItem_literal plain))]
      rfl
  | _, _, @IsAtom.choice cs plain, r, outside => by
      have opening : read pattern r '[' = .ok { r.after ['['] r.frame with choice := some [] } := by
        rw [read_outside outside]
        rfl
      have letters : SortedSet.ofList ((cs.reverse ++ []).map Symbol.ofChar) =
          .ofList (cs.map Symbol.ofChar) := SortedSet.ext fun a => by simp
      rw [List.cons_append, readAll_cons opening, readAll_choice rfl plain, letters]
      simp [after, outside, Nat.add_assoc, Nat.add_comm 1]
  | _, _, @IsAtom.group cs items inside, r, outside => by
      have opening : read pattern r '(' =
          .ok { r.after ['('] {} with outer := r.frame :: r.outer } := by
        rw [read_outside outside]
        rfl
      let opened : Reader := { r.after ['('] {} with outer := r.frame :: r.outer }
      obtain ⟨f, run, parts⟩ := reads_alternation inside opened outside rfl
      have closing : read pattern (opened.after cs f) ')' =
          .ok (r.after ('(' :: cs ++ [')']) (r.frame.push (.concat items))) := by
        rw [read_outside (r := opened.after cs f) outside, ← parts]
        simp [readItem, quantifier?, after, opened, continueWith, Nat.add_assoc, Nat.add_comm 1]
      rw [List.cons_append, readAll_cons opening, readAll_append run, readAll_cons closing]
      rfl

theorem reads_item : ∀ {cs : List Char} {e : Regex}, IsItem cs e → ∀ r : Reader,
    r.choice = none → readAll pattern r cs = .ok (r.after cs (r.frame.push e))
  | _, _, .atom h, r, outside => reads_atom h r outside
  | _, _, .star h, r, outside => by
      rw [readAll_append (reads_item h r outside), readAll_cons (read_quantifier outside rfl)]
      rfl
  | _, _, .plus h, r, outside => by
      rw [readAll_append (reads_item h r outside), readAll_cons (read_quantifier outside rfl)]
      rfl
  | _, _, .opt h, r, outside => by
      rw [readAll_append (reads_item h r outside), readAll_cons (read_quantifier outside rfl)]
      rfl

theorem reads_sequence : ∀ {cs : List Char} {items : List Regex}, IsSequence cs items →
    ∀ r : Reader, r.choice = none → readAll pattern r cs =
      .ok (r.after cs { r.frame with items := items.reverse ++ r.frame.items })
  | _, _, .nil, r, outside => by
      rfl
  | _, _, .cons first rest, r, outside => by
      rw [readAll_append (reads_item first r outside),
        reads_sequence rest (r.after _ (r.frame.push _)) outside, after_after]
      simp [after, Frame.push]

theorem reads_sequences : ∀ {cs : List Char} {sequences : List (List Regex)},
    AreSequences cs sequences → ∀ r : Reader, r.choice = none → r.frame.items = [] →
      ∃ f : Frame, readAll pattern r cs = .ok (r.after cs f) ∧
        f.bar.alternatives = (sequences.map .concat).reverse ++ r.frame.alternatives
  | _, _, @AreSequences.one cs items first, r, outside, new => by
      refine ⟨_, reads_sequence first r outside, ?_⟩
      simp [Frame.bar, new]
  | _, _, @AreSequences.more cs ds items sequences first rest, r, outside, new => by
      let f : Frame := { r.frame with items := items.reverse ++ r.frame.items }
      have bar : read pattern (r.after cs f) '|' = .ok (r.after (cs ++ ['|']) f.bar) := by
        rw [read_outside (r := r.after cs f) outside, ← after_after]
        rfl
      obtain ⟨g, run, alternatives⟩ :=
        reads_sequences rest (r.after (cs ++ ['|']) f.bar) outside rfl
      refine ⟨g, ?_, ?_⟩
      · rw [readAll_append (reads_sequence first r outside), readAll_cons bar, run, after_after]
        simp
      · rw [alternatives]
        simp [after, Frame.bar, f, new]

theorem reads_alternation : ∀ {cs : List Char} {items : List Regex}, IsAlternation cs items →
    ∀ r : Reader, r.choice = none → r.frame = {} →
      ∃ f : Frame, readAll pattern r cs = .ok (r.after cs f) ∧ f.parts = items
  | _, _, @IsAlternation.of cs sequences h, r, outside, new => by
      obtain ⟨f, run, alternatives⟩ := reads_sequences h r outside (by rw [new])
      refine ⟨f, run, parts_eq_joined ?_⟩
      rw [alternatives, new]
      simp

end

/-! ### Errors -/

/-- Every error of a reader is one of the pattern. -/
theorem read_kind {e : Error} (failure : read pattern r c = .error e) : e.kind = .pattern := by
  rw [read] at failure
  split at failure
  · cases failure
  · unfold readItem at failure
    repeat' split at failure
    all_goals cases failure <;> rfl

theorem readAll_kind {e : Error} (failure : readAll pattern r cs = .error e) :
    e.kind = .pattern := by
  induction cs generalizing r with
  | nil => cases failure
  | cons c cs ih =>
      cases next : read pattern r c with
      | ok s =>
          rw [readAll_cons next] at failure
          exact ih failure
      | error e' =>
          rw [readAll, List.foldlM_cons, next] at failure
          cases failure
          exact read_kind next

/-! ### A bracket too many -/

theorem readAll_error_of_closing (later : ∀ c ∈ cs, c = '|' ∨ c ∉ operators)
    (outside : r.choice = none) : ∃ e, readAll pattern r (cs ++ [']']) = .error e := by
  induction cs generalizing r with
  | nil =>
      refine ⟨.unbalanced ']' r.position pattern, ?_⟩
      rw [List.nil_append, readAll, List.foldlM_cons, read_outside outside]
      rfl
  | cons c cs ih =>
      have next : ∃ s : Reader, read pattern r c = .ok s ∧ s.choice = none := by
        rw [read_outside outside]
        rcases later c List.mem_cons_self with rfl | plain
        · exact ⟨_, rfl, outside⟩
        · exact ⟨_, readItem_literal plain, outside⟩
      obtain ⟨s, read, outside⟩ := next
      rw [List.cons_append, readAll_cons read]
      exact ih (fun d member => later d (List.mem_cons_of_mem c member)) outside

end Automata.Regex.Reader

namespace Automata.Regex

theorem IsItem.sequence {cs : List Char} {r : Regex} (h : IsItem cs r) : IsSequence cs [r] := by
  have single := IsSequence.cons h .nil
  rwa [List.append_nil] at single

theorem IsSequence.append : ∀ {cs ds : List Char} {items l : List Regex}, IsSequence cs items →
    IsSequence ds l → IsSequence (cs ++ ds) (items ++ l)
  | _, _, _, _, .nil, second => second
  | _, _, _, _, .cons item rest, second => by
      rw [List.append_assoc]
      exact .cons item (rest.append second)

theorem AreSequences.append : ∀ {cs ds : List Char} {first second : List (List Regex)},
    AreSequences cs first → AreSequences ds second →
      AreSequences (cs ++ '|' :: ds) (first ++ second)
  | _, _, _, _, .one sequence, others => .more sequence others
  | _, _, _, _, .more sequence rest, others => by
      rw [List.append_assoc, List.cons_append]
      exact .more sequence (rest.append others)

/-! ### What can be written -/

mutual

/-- What the grammar allows can be written as a pattern. -/
theorem IsAtom.isWritable : ∀ {cs : List Char} {r : Regex}, IsAtom cs r → r.IsWritable
  | _, _, .any => trivial
  | _, _, .literal plain => ⟨_, plain, rfl⟩
  | _, _, .choice plain => by
      intro s member
      rw [SortedSet.mem_toList, SortedSet.mem_ofList] at member
      obtain ⟨c, inside, rfl⟩ := List.mem_map.mp member
      exact ⟨c, fun same => plain (same ▸ inside), rfl⟩
  | _, _, .group inside => inside.areWritable

theorem IsItem.isWritable : ∀ {cs : List Char} {r : Regex}, IsItem cs r → r.IsWritable
  | _, _, .atom h => h.isWritable
  | _, _, .star h | _, _, .plus h | _, _, .opt h => h.isWritable

theorem IsSequence.areWritable : ∀ {cs : List Char} {items : List Regex},
    IsSequence cs items → AreWritable items
  | _, _, .nil => trivial
  | _, _, .cons item rest => ⟨item.isWritable, rest.areWritable⟩

theorem AreSequences.areWritable : ∀ {cs : List Char} {sequences : List (List Regex)},
    AreSequences cs sequences → ∀ items ∈ sequences, AreWritable items
  | _, _, .one sequence => by simpa using sequence.areWritable
  | _, _, .more sequence rest =>
      List.forall_mem_cons.mpr ⟨sequence.areWritable, rest.areWritable⟩

theorem IsAlternation.areWritable : ∀ {cs : List Char} {items : List Regex},
    IsAlternation cs items → AreWritable items
  | _, _, @IsAlternation.of _ sequences h => by
      have all := h.areWritable
      match sequences with
      | [] => simp [joined, AreWritable, IsWritable]
      | [items] => exact all items (by simp)
      | _ :: _ :: _ => simpa [joined, AreWritable, areWritable_iff, IsWritable] using all

end

/-- Every alternation is read as what it stands for. -/
theorem parseItems_ok {cs : List Char} {items : List Regex} (h : IsAlternation cs items) :
    parseItems (String.ofList cs) = .ok items := by
  obtain ⟨f, run, parts⟩ := @Reader.reads_alternation (String.ofList cs) _ _ h {} rfl rfl
  rw [Reader.readAll] at run
  rw [parseItems, String.toList_ofList, run, ← parts]
  rfl

theorem parseItems_kind {pattern : String} {e : Error} (failure : parseItems pattern = .error e) :
    e.kind = .pattern := by
  rw [parseItems] at failure
  cases run : Reader.readAll pattern {} pattern.toList with
  | error e' =>
      rw [← Reader.readAll, run] at failure
      cases failure
      exact Reader.readAll_kind run
  | ok r =>
      rw [← Reader.readAll, run] at failure
      change r.finish pattern = .error e at failure
      unfold Reader.finish at failure
      split at failure <;> cases failure <;> rfl

theorem parse_ok {cs : List Char} {items : List Regex} (h : IsAlternation cs items) :
    parse (String.ofList cs) = .ok (ofItems items) := by
  rw [parse, parseItems_ok h]
  rfl

/-- A choice cannot hold a closing bracket: the text ends with one too many. -/
theorem parse_error_of_bracket {cs ds : List Char} (first : ']' ∉ cs)
    (later : ∀ c ∈ ds, c = '|' ∨ c ∉ operators) :
    ∃ e, parse (String.ofList ('[' :: (cs ++ ']' :: ds) ++ [']'])) = .error e := by
  generalize text : '[' :: (cs ++ ']' :: ds) ++ [']'] = all
  have split : all = ('[' :: cs ++ [']']) ++ (ds ++ [']']) := by simp [← text]
  obtain ⟨e, failure⟩ : ∃ e, Reader.readAll (String.ofList all) {} all = .error e := by
    rw [split, Reader.readAll_append (Reader.reads_atom (.choice first) {} rfl)]
    exact Reader.readAll_error_of_closing later rfl
  rw [Reader.readAll] at failure
  rw [parse, parseItems, String.toList_ofList, failure]
  exact ⟨e, rfl⟩

end Automata.Regex
