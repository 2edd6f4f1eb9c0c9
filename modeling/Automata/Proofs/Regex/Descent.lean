import Automata.Proofs.Regex.Reader
import Automata.Proofs.Regex.Tree
import Automata.Regex.Descent

/-! # Reading exactly what the grammar allows

The reader that descends into groups stops only where a group may end, and what it has read up to
there is an alternation. Both readers give the same answers, so a pattern is read if and only if it
is an alternation, and then all of it is read.
-/

namespace Automata.Regex

variable {pattern : String} {depth : Nat} {f : Frame} {before cs ds : List Char} {c : Char}
  {e r : Regex} {items : List Regex} {sequences : List (List Regex)}

/-! ### The last item of a text -/

/-- The last sequence of a text can be replaced. -/
theorem AreSequences.exists_last (h : AreSequences cs (sequences ++ [items])) :
    ∃ before ds, cs = before ++ ds ∧ IsSequence ds items ∧ ∀ {es : List Char} {l : List Regex},
      IsSequence es l → AreSequences (before ++ es) (sequences ++ [l]) := by
  induction sequences generalizing cs with
  | nil =>
      cases h with
      | one sequence => exact ⟨[], cs, rfl, sequence, .one⟩
      | more _ rest => cases rest
  | cons first sequences ih =>
      generalize whole : first :: sequences ++ [items] = all at h
      cases h with
      | one sequence => simp at whole
      | @more cs ds _ _ sequence rest =>
          obtain ⟨rfl, rfl⟩ := List.cons.inj whole
          obtain ⟨before, ds, rfl, last, replace⟩ := ih rest
          refine ⟨cs ++ '|' :: before, ds, by simp, last, fun other => ?_⟩
          rw [List.append_assoc]
          exact .more sequence (replace other)

theorem IsSequence.exists_last (h : IsSequence cs (items ++ [r])) :
    ∃ before ds, cs = before ++ ds ∧ IsSequence before items ∧ IsItem ds r := by
  induction items generalizing cs with
  | nil =>
      cases h with
      | cons item rest =>
          cases rest
          exact ⟨[], _, by simp, .nil, item⟩
  | cons first items ih =>
      cases h with
      | @cons cs _ _ _ item rest =>
          obtain ⟨before, ds, rfl, earlier, last⟩ := ih rest
          exact ⟨cs ++ before, ds, by simp, .cons item earlier, last⟩

/-- What has been read of a group is a text of the grammar: closed alternatives, and the items of
    the current one. -/
def Frame.StandsFor (f : Frame) (cs : List Char) : Prop :=
  ∃ sequences, AreSequences cs (sequences ++ [f.items.reverse]) ∧
    f.alternatives = (sequences.map Regex.concat).reverse

namespace Frame.StandsFor

theorem empty : ({} : Frame).StandsFor [] := ⟨[], .one .nil, rfl⟩

theorem isAlternation (stands : f.StandsFor cs) : IsAlternation cs f.parts := by
  obtain ⟨sequences, text, alternatives⟩ := stands
  have closed : f.bar.alternatives =
      ((sequences ++ [f.items.reverse]).map Regex.concat).reverse := by
    simp [bar, alternatives]
  rw [Reader.parts_eq_joined closed]
  exact .of text

theorem push (stands : f.StandsFor cs) (item : IsItem ds r) : (f.push r).StandsFor (cs ++ ds) := by
  obtain ⟨sequences, text, alternatives⟩ := stands
  obtain ⟨before, es, rfl, last, replace⟩ := text.exists_last
  refine ⟨sequences, ?_, alternatives⟩
  have longer : IsSequence (es ++ ds) (f.items.reverse ++ [r]) := last.append item.sequence
  simpa [Frame.push] using replace longer

theorem bar (stands : f.StandsFor cs) : f.bar.StandsFor (cs ++ ['|']) := by
  obtain ⟨sequences, text, alternatives⟩ := stands
  refine ⟨sequences ++ [f.items.reverse], ?_, ?_⟩
  · exact text.append (.one .nil)
  · simp [Frame.bar, alternatives]

theorem quantify {quantify : Regex → Regex} (stands : f.StandsFor cs)
    (known : Reader.quantifier? c = some quantify) (some : f.items = r :: items) :
    ({ f with items := quantify r :: items } : Frame).StandsFor (cs ++ [c]) := by
  obtain ⟨sequences, text, alternatives⟩ := stands
  rw [some, List.reverse_cons] at text
  obtain ⟨before, es, rfl, last, replace⟩ := text.exists_last
  obtain ⟨earlier, ds, rfl, first, item⟩ := last.exists_last
  refine ⟨sequences, ?_, alternatives⟩
  have longer : IsItem (ds ++ [c]) (quantify r) := by
    unfold Reader.quantifier? at known
    split at known <;> cases known
    · exact .star item
    · exact .plus item
    · exact .opt item
  simpa using replace (first.append longer.sequence)

end Frame.StandsFor

/-! ### What the reader by descent reads -/

/-- Outside of brackets and parentheses one character goes on with the group. -/
theorem Frame.StandsFor.readItem {position : Nat} {s : Reader} (stands : f.StandsFor cs)
    (plain : c ≠ '(' ∧ c ≠ ')' ∧ c ≠ '[')
    (read : Reader.readItem pattern { position, frame := f } c = .ok s) :
    s.frame.StandsFor (cs ++ [c]) := by
  unfold Reader.readItem at read
  split at read
  · rename_i quantify known
    split at read
    · cases read
    · rename_i r items some
      cases read
      exact stands.quantify known some
  · rename_i none
    split at read
    · cases read
      exact stands.push (.atom .any)
    · cases read
      exact stands.bar
    · simp at plain
    · cases read
    · simp at plain
    · simp at plain
    · rename_i c _ _ _ _ _ _
      cases read
      refine stands.push (.atom (.literal fun operator => ?_))
      simp only [operators, List.mem_cons, List.not_mem_nil, or_false] at operator
      rcases operator with rfl | rfl | rfl | rfl | rfl | rfl | rfl | rfl | rfl <;>
        simp_all [Reader.quantifier?]

theorem Descent.of_within {h : cs.length ≤ ds.length} {result : Except Error (Descent cs)}
    {d : Descent ds} (run : result.map (.within h) = .ok d) :
    ∃ d' : Descent cs, result = .ok d' ∧ d.items = d'.items ∧ d.left = d'.left := by
  cases result with
  | error e => cases run
  | ok d' =>
      cases run
      exact ⟨d', rfl, rfl, rfl⟩

/-- The reader stops at the end of the text, or at a parenthesis that closes a group. -/
theorem descendFrom_stops {d : Descent cs} (run : descendFrom pattern depth f cs = .ok d) :
    d.left = [] ∨ (depth ≠ 0 ∧ ∃ left, d.left = ')' :: left) := by
  fun_induction descendFrom pattern depth f cs with
  | case1 =>
      cases run
      exact .inl rfl
  | case3 depth f cs inside =>
      cases run
      exact .inr ⟨inside, cs, rfl⟩
  | case6 depth f cs items c left shorter inner _ _ _ ih =>
      obtain ⟨d', rest, _, same⟩ := Descent.of_within run
      exact same ▸ ih rest
  | case8 depth f cs letters left found _ _ _ ih =>
      obtain ⟨d', rest, _, same⟩ := Descent.of_within run
      exact same ▸ ih rest
  | case10 depth f c cs _ _ _ r read ih =>
      obtain ⟨d', rest, _, same⟩ := Descent.of_within run
      exact same ▸ ih rest
  | case2 | case4 | case5 | case7 | case9 => cases run

/-- What is read on top of what stands in the group already is an alternation. -/
theorem descendFrom_sound {d : Descent cs} (run : descendFrom pattern depth f cs = .ok d)
    (stands : f.StandsFor before) :
    ∃ ds, cs = ds ++ d.left ∧ IsAlternation (before ++ ds) d.items := by
  fun_induction descendFrom pattern depth f cs generalizing before with
  | case1 =>
      cases run
      exact ⟨[], rfl, by simpa using stands.isAlternation⟩
  | case3 depth f cs inside =>
      cases run
      exact ⟨[], rfl, by simpa using stands.isAlternation⟩
  | case6 depth f cs items c left shorter inner _ _ ihGroup ih =>
      obtain ⟨d', rest, items, same⟩ := Descent.of_within run
      obtain ⟨group, split, alternation⟩ := ihGroup inner .empty
      rcases descendFrom_stops inner with nothing | ⟨_, _, closing⟩
      · cases nothing
      · obtain ⟨rfl, rfl⟩ := List.cons.inj closing
        obtain ⟨ds, parts, whole⟩ := ih rest (stands.push (.atom (.group alternation)))
        refine ⟨'(' :: group ++ ')' :: ds, ?_, ?_⟩
        · rw [same, split]
          simp [← parts]
        · rw [items]
          simpa using whole
  | case8 depth f cs letters left found _ _ _ ih =>
      obtain ⟨d', rest, items, same⟩ := Descent.of_within run
      obtain ⟨split, inside⟩ := splitBracket_eq_some found
      obtain ⟨ds, parts, whole⟩ := ih rest (stands.push (.atom (.choice inside)))
      refine ⟨'[' :: letters ++ ']' :: ds, ?_, ?_⟩
      · rw [same, split]
        simp [← parts]
      · rw [items]
        simpa using whole
  | case10 depth f c cs closing opening bracket r read ih =>
      obtain ⟨d', rest, items, same⟩ := Descent.of_within run
      obtain ⟨ds, parts, whole⟩ := ih rest (stands.readItem ⟨opening, closing, bracket⟩ read)
      refine ⟨c :: ds, ?_, ?_⟩
      · rw [same, List.cons_append, ← parts]
      · rw [items]
        simpa using whole
  | case2 | case4 | case5 | case7 | case9 => cases run

/-! ### Both readers agree -/

namespace Reader

/-- Reads the rest of a pattern, starting outside of choices. -/
def complete (pattern : String) (outer : List Frame) (f : Frame) (cs : List Char) :
    Except Error (List Regex) :=
  readAll pattern { position := pattern.length - cs.length, frame := f, outer } cs >>=
    finish pattern

/-- Reads the rest of a pattern, once the items of the innermost group and what comes behind them
    are known. -/
def resume (pattern : String) (outer : List Frame) (items : List Regex) (left : List Char) :
    Except Error (List Regex) :=
  match outer, left with
  | [], _ => .ok items
  | _ :: _, [] => .error (.unclosed ')' pattern.length pattern)
  | f :: outer, _ :: left => complete pattern outer (f.push (.concat items)) left

variable {outer outer' : List Frame} {g : Frame} {position : Nat} {left letters : List Char}

theorem place_succ (place : (c :: cs).length ≤ pattern.length) :
    pattern.length - (cs.length + 1) + 1 = pattern.length - cs.length := by
  rw [List.length_cons] at place
  omega

theorem complete_cons
    (step : read pattern { position := pattern.length - (cs.length + 1), frame := f, outer } c =
      .ok { position := pattern.length - cs.length, frame := g, outer := outer' }) :
    complete pattern outer f (c :: cs) = complete pattern outer' g cs := by
  rw [complete, List.length_cons, readAll_cons step]
  rfl

theorem complete_cons_error {error : Error}
    (step : read pattern { position := pattern.length - (cs.length + 1), frame := f, outer } c =
      .error error) :
    complete pattern outer f (c :: cs) = .error error := by
  rw [complete, List.length_cons, readAll, List.foldlM_cons, step]
  rfl

/-- Outside of brackets and parentheses the groups around do not matter. -/
theorem readItem_outer (plain : c ≠ '(' ∧ c ≠ ')' ∧ c ≠ '[') :
    readItem pattern { position, frame := f, outer } c =
      (readItem pattern { position, frame := f } c).map fun r =>
        { position := position + 1, frame := r.frame, outer } := by
  unfold readItem
  cases stands : quantifier? c with
  | some quantify =>
      dsimp only
      cases f.items <;> rfl
  | none =>
      dsimp only
      split <;> first | rfl | simp at plain

theorem complete_choice (place : ('[' :: cs).length ≤ pattern.length)
    (found : splitBracket cs = some (letters, left)) :
    complete pattern outer f ('[' :: cs) =
      complete pattern outer (f.push (.choice (.ofList (letters.map Symbol.ofChar)))) left := by
  obtain ⟨rfl, inside⟩ := splitBracket_eq_some found
  have split : '[' :: (letters ++ ']' :: left) = ('[' :: letters ++ [']']) ++ left := by simp
  have position : pattern.length - ('[' :: letters ++ [']'] ++ left).length +
      ('[' :: letters ++ [']']).length = pattern.length - left.length := by
    rw [split, List.length_append] at place
    rw [List.length_append]
    omega
  rw [complete, split, readAll_append (reads_atom (.choice inside) _ rfl), after, position]
  rfl

/-- A bracket that is never closed takes the rest of the pattern into its choice. -/
theorem complete_unclosed (place : ('[' :: cs).length ≤ pattern.length)
    (found : splitBracket cs = none) :
    complete pattern outer f ('[' :: cs) = .error (.unclosed ']' pattern.length pattern) := by
  have opening : read pattern
      { position := pattern.length - (cs.length + 1), frame := f, outer } '[' =
        .ok { position := pattern.length - cs.length, choice := some [], frame := f, outer } := by
    rw [← place_succ place]
    rfl
  rw [complete, List.length_cons, readAll_cons opening,
    readAll_inside rfl (splitBracket_eq_none found)]
  have position : pattern.length - cs.length + cs.length = pattern.length := by
    rw [List.length_cons] at place
    omega
  simp only [after, position]
  rfl

theorem within_bind {h : cs.length ≤ ds.length} {result : Except Error (Descent cs)} :
    (result.map (Descent.within h) >>= fun d => resume pattern outer d.items d.left) =
      result >>= fun d => resume pattern outer d.items d.left := by
  cases result <;> rfl

/-- Reading on is the same as descending first and resuming with what is left. -/
theorem complete_eq (deep : outer.length = depth) (place : cs.length ≤ pattern.length) :
    complete pattern outer f cs =
      descendFrom pattern depth f cs >>= fun d => resume pattern outer d.items d.left := by
  fun_induction descendFrom pattern depth f cs generalizing outer with
  | case1 =>
      cases outer <;> rfl
  | case2 f cs =>
      obtain rfl := List.eq_nil_of_length_eq_zero deep
      exact complete_cons_error rfl
  | case3 depth f cs inside =>
      obtain ⟨g, outer, rfl⟩ := List.exists_cons_of_length_pos (by omega : 0 < outer.length)
      exact complete_cons (by rw [← place_succ place]; rfl)
  | case4 depth f cs e inner _ ih =>
      have opened : complete pattern outer f ('(' :: cs) = complete pattern (f :: outer) {} cs :=
        complete_cons (by rw [← place_succ place]; rfl)
      rw [opened, ih (congrArg (· + 1) deep) (Nat.le_of_succ_le place), inner]
      rfl
  | case5 depth f cs items shorter inner _ ih =>
      have opened : complete pattern outer f ('(' :: cs) = complete pattern (f :: outer) {} cs :=
        complete_cons (by rw [← place_succ place]; rfl)
      rw [opened, ih (congrArg (· + 1) deep) (Nat.le_of_succ_le place), inner]
      rfl
  | case6 depth f cs items c left shorter inner _ _ ihGroup ih =>
      have opened : complete pattern outer f ('(' :: cs) = complete pattern (f :: outer) {} cs :=
        complete_cons (by rw [← place_succ place]; rfl)
      rw [List.length_cons] at shorter place
      rw [opened, ihGroup (congrArg (· + 1) deep) (by omega), inner, within_bind,
        ← ih deep (by omega)]
      rfl
  | case7 depth f cs found => exact complete_unclosed place found
  | case8 depth f cs letters left found _ _ behind ih =>
      rw [complete_choice place found, within_bind, ih deep (by omega)]
  | case9 depth f c cs closing opening bracket e read =>
      refine complete_cons_error ?_
      rw [read_outside rfl, readItem_outer ⟨opening, closing, bracket⟩, read]
      rfl
  | case10 depth f c cs closing opening bracket r read ih =>
      have next : complete pattern outer f (c :: cs) = complete pattern outer r.frame cs := by
        refine complete_cons ?_
        rw [read_outside rfl, readItem_outer ⟨opening, closing, bracket⟩, read, ← place_succ place]
        rfl
      rw [next, within_bind, ih deep (Nat.le_of_succ_le place)]

end Reader

/-- Descending reads a whole pattern, and reads the same. -/
theorem descend_eq (pattern : String) :
    descend pattern = (parseItems pattern).map fun items => (items, []) := by
  have same : parseItems pattern = Reader.complete pattern [] {} pattern.toList := by
    rw [Reader.complete, String.length_toList, Nat.sub_self]
    rfl
  rw [same, Reader.complete_eq rfl (Nat.le_of_eq String.length_toList), descend]
  cases run : descendFrom pattern 0 {} pattern.toList with
  | error e => rfl
  | ok d =>
      have nothing : d.left = [] := (descendFrom_stops run).resolve_right fun more => more.1 rfl
      show Except.ok (d.items, d.left) = .ok (d.items, [])
      rw [nothing]

/-! ### The grammar -/

/-- What is read is an alternation. -/
theorem isAlternation_of_parseItems (run : parseItems pattern = .ok items) :
    IsAlternation pattern.toList items := by
  have whole : descend pattern = .ok (items, []) := by
    rw [descend_eq, run]
    rfl
  rw [descend] at whole
  cases descended : descendFrom pattern 0 {} pattern.toList with
  | error e =>
      rw [descended] at whole
      cases whole
  | ok d =>
      rw [descended] at whole
      obtain ⟨ds, split, alternation⟩ := descendFrom_sound descended .empty
      obtain ⟨rfl, nothing⟩ := Prod.mk.inj (Except.ok.inj whole)
      rw [nothing, List.append_nil] at split
      rwa [List.nil_append, ← split] at alternation

/-- A pattern is read if and only if the grammar derives it, and what is read is then the tree of
    its only derivation; any other text is a pattern error. A reader by descent, which could stop
    before the end, gives the same answers and never leaves anything. -/
theorem parseItems_derives (pattern : String) :
    (∀ items, parseItems pattern = .ok items ↔
      ∃ t : PatternTree, t.text = pattern.toList ∧ t.items = items) ∧
    (∀ t u : PatternTree, t.text = pattern.toList → u.text = pattern.toList → t = u) ∧
    ((∃ e, parseItems pattern = .error e ∧ e.kind = .pattern) ↔
      ∀ t : PatternTree, t.text ≠ pattern.toList) ∧
    descend pattern = (parseItems pattern).map fun items => (items, []) := by
  have accepted (items : List Regex) : parseItems pattern = .ok items ↔
      ∃ t : PatternTree, t.text = pattern.toList ∧ t.items = items := by
    rw [← isAlternation_iff]
    constructor
    · exact isAlternation_of_parseItems
    · intro alternation
      have run := parseItems_ok alternation
      rwa [String.ofList_toList] at run
  refine ⟨accepted, fun t u first second => ?_, ?_, descend_eq pattern⟩
  · exact PatternTree.text_injective (first.trans second.symm)
  · constructor
    · intro ⟨e, failure, _⟩ t derived
      rw [(accepted t.items).mpr ⟨t, derived, rfl⟩] at failure
      cases failure
    · intro none
      cases run : parseItems pattern with
      | ok items =>
          obtain ⟨t, derived, _⟩ := (accepted items).mp run
          exact absurd derived (none t)
      | error e => exact ⟨e, rfl, parseItems_kind run⟩

end Automata.Regex
