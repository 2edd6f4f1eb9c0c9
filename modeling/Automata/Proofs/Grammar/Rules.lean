import Automata.Grammar.Rules
import Automata.Proofs.Grammar.Leftmost
import Automata.Text.Lines
import Mathlib.Data.List.Basic
import Mathlib.Data.List.TakeWhile

/-! # Reading back a printed grammar

A grammar is printed one rule a line, and each line is read back as the productions that it was
printed for: its first arrow is the one behind the nonterminal, outputs hold no bars, and ε comes
back as the empty output. Blanks are trimmed or end a line, so outputs must not hold any.
-/

namespace Automata

/-! ### Lines and blanks -/

namespace Text

variable {cs ds line : List Char} {c : Char}

theorem isBlank_of_isLineEnd (ends : isLineEnd c = true) : isBlank c = true := by
  simp only [isLineEnd, isBlank, isSeparator, Bool.or_eq_true, Bool.and_eq_true, decide_eq_true_eq,
    beq_iff_eq] at ends ⊢
  omega

theorem not_isLineEnd (solid : isBlank c = false) : isLineEnd c = false := by
  cases ends : isLineEnd c with
  | false => rfl
  | true => simp [isBlank_of_isLineEnd ends] at solid

theorem not_isBlank_of_capital (first : 'A' ≤ c) (last : c ≤ 'Z') : isBlank c = false := by
  have first : 65 ≤ c.toNat := first
  have last : c.toNat ≤ 90 := last
  simp only [isBlank, isSeparator, Bool.or_eq_false_iff, Bool.and_eq_false_iff,
    decide_eq_false_iff_not, beq_eq_false_iff_ne]
  omega

theorem linesFrom_append (inside : ∀ c ∈ cs, isLineEnd c = false) :
    linesFrom line false (cs ++ ds) = linesFrom (cs.reverse ++ line) false ds := by
  induction cs generalizing line with
  | nil => rfl
  | cons c cs ih =>
      rw [List.forall_mem_cons] at inside
      simp [linesFrom, inside.1, ih inside.2]

theorem linesFrom_nil (some : line ≠ []) : linesFrom line false [] = [line.reverse] := by
  cases line with
  | nil => contradiction
  | cons c line => rfl

theorem linesFrom_intercalate {ls : List (List Char)}
    (proper : ∀ l ∈ ls, l ≠ [] ∧ ∀ c ∈ l, isLineEnd c = false) :
    linesFrom [] false (['\n'].intercalate ls) = ls := by
  induction ls with
  | nil => rfl
  | cons l ls ih =>
      obtain ⟨⟨some, inside⟩, later⟩ := List.forall_mem_cons.mp proper
      cases ls with
      | nil =>
          have whole : linesFrom [] false (l ++ []) = linesFrom (l.reverse ++ []) false [] :=
            linesFrom_append inside
          rw [List.append_nil, List.append_nil, linesFrom_nil (by simpa using some)] at whole
          simpa using whole
      | cons m ls =>
          rw [List.intercalate_cons_cons, List.append_assoc, linesFrom_append inside]
          simp [linesFrom, isLineEnd, ih later]

/-- Lines that are joined are split again. -/
theorem lines_intercalate {ls : List String}
    (proper : ∀ l ∈ ls, l ≠ "" ∧ ∀ c ∈ l.toList, isLineEnd c = false) :
    lines ("\n".intercalate ls) = ls := by
  have texts : ∀ l ∈ ls.map String.toList, l ≠ [] ∧ ∀ c ∈ l, isLineEnd c = false := by
    simpa using proper
  have split := linesFrom_intercalate texts
  rw [lines, String.toList_intercalate]
  simp [split]

theorem dropWhile_padded {p : Char → Bool} {front : List Char} (before : ∀ c ∈ front, p c = true)
    (solid : ∀ c ∈ cs.head?, p c = false) : (front ++ cs).dropWhile p = cs := by
  rw [List.dropWhile_append_of_pos before]
  cases cs with
  | nil => rfl
  | cons c cs => exact List.dropWhile_cons_of_neg (by simp [solid c rfl])

/-- Trimming leaves what stands between blanks. -/
theorem trim_padded {front back : List Char} (before : ∀ c ∈ front, isBlank c = true)
    (after : ∀ c ∈ back, isBlank c = true) (solid : ∀ c ∈ cs, isBlank c = false) :
    trim (front ++ (cs ++ back)) = cs := by
  rw [trim, trimBy]
  cases cs with
  | nil =>
      have all : ∀ c ∈ front ++ ([] ++ back), isBlank c = true := by
        simpa [or_imp, forall_and] using ⟨before, after⟩
      rw [List.dropWhile_eq_nil_iff.mpr all]
      rfl
  | cons c cs =>
      rw [dropWhile_padded before (by simpa using solid c List.mem_cons_self), List.reverse_append,
        dropWhile_padded (by simpa using after), List.reverse_reverse]
      exact fun d last => solid d (List.mem_reverse.mp (List.mem_of_mem_head? last))

theorem mem_of_mem_trim (member : c ∈ trim cs) : c ∈ cs := by
  rw [trim, trimBy, List.mem_reverse] at member
  exact (List.dropWhile_sublist _).subset
    (List.mem_reverse.mp ((List.dropWhile_sublist _).subset member))

end Text

/-! ### Outputs -/

namespace Form

variable {f : Form} {cs : List Char}

/-- The text of what is read lacks the ε's only. -/
theorem toList_text_ofChars : (ofChars cs).text.toList = cs.filter (· ≠ 'ε') := by
  induction cs with
  | nil => rfl
  | cons c cs ih =>
      have rest : (Form.mk (cs.filterMap Element.ofChar?)).text.toList = cs.filter (· ≠ 'ε') := ih
      rw [ofChars, List.filterMap_cons, List.filter_cons]
      by_cases nothing : c = 'ε'
      · simpa [Element.ofChar?, nothing] using rest
      · by_cases capital : 'A' ≤ c ∧ c ≤ 'Z' <;>
          simp [Element.ofChar?, nothing, capital, toList_text_cons, rest, Element.text,
            Symbol.ofChar]

/-- An output as rules list them: it is read back from its text, which holds no bar. -/
structure IsListed (f : Form) : Prop where
  read : ofString f.text = f
  bar_not_mem : '|' ∉ f.text.toList

theorem isListed_ofChars (plain : '|' ∉ cs) : (ofChars cs).IsListed where
  read := by
    rw [ofString, toList_text_ofChars, ofChars, ofChars, List.filterMap_filter]
    refine congrArg Form.mk (List.filterMap_congr fun c _ => ?_)
    by_cases nothing : c = 'ε' <;> simp [Element.ofChar?, nothing]
  bar_not_mem := by
    rw [toList_text_ofChars]
    exact fun member => plain (List.mem_filter.mp member).1

end Form

namespace Grammar

variable {g h : Grammar} {cs ds : List Char} {rule v : String} {rules : List String}
  {ps qs : List Production} {p : Production}

/-! ### Bars -/

theorem splitBars_eq (cs : List Char) : splitBars cs = cs.splitOnP (· == '|') := by
  induction cs with
  | nil => rfl
  | cons c cs ih =>
      rw [splitBars, ih, List.splitOnP_cons_eq_if_modifyHead]
      cases parts : cs.splitOnP (· == '|') with
      | nil => exact absurd parts (List.splitOnP_ne_nil _ _)
      | cons part parts => simp

theorem beq_bar_eq_false (plain : '|' ∉ cs) : ∀ c ∈ cs, (c == '|') = false := by
  intro c member
  rw [beq_eq_false_iff_ne]
  rintro rfl
  exact plain member

theorem splitBars_of_plain (plain : '|' ∉ cs) : splitBars cs = [cs] := by
  rw [splitBars_eq]
  exact List.splitOnP_eq_singleton (beq_bar_eq_false plain)

theorem splitBars_append (plain : '|' ∉ cs) : splitBars (cs ++ '|' :: ds) = cs :: splitBars ds := by
  rw [splitBars_eq, splitBars_eq]
  exact List.splitOnP_append_cons_of_forall_mem (beq_bar_eq_false plain) '|' rfl ds

theorem bar_not_mem_of_mem_splitBars {part : List Char} (member : part ∈ splitBars cs) :
    '|' ∉ part := by
  induction cs generalizing part with
  | nil => simp_all [splitBars]
  | cons c cs ih =>
      rw [splitBars_eq, List.splitOnP_cons_eq_if_modifyHead, ← splitBars_eq] at member
      split at member
      · rcases List.mem_cons.mp member with rfl | later
        · exact List.not_mem_nil
        · exact ih later
      · rename_i other
        cases parts : splitBars cs with
        | nil => simp [parts] at member
        | cons first parts =>
            rw [parts] at member ih
            rcases List.mem_cons.mp member with rfl | later
            · have other : c ≠ '|' := by simpa using other
              simp [other.symm, ih List.mem_cons_self]
            · exact ih (List.mem_cons_of_mem _ later)

/-- The texts that were joined with bars are what stands between the bars, blanks aside. -/
theorem trim_splitBars {xs : List (List Char)} (nonempty : xs ≠ [])
    (solid : ∀ x ∈ xs, '|' ∉ x ∧ ∀ c ∈ x, Text.isBlank c = false) :
    (splitBars (' ' :: [' ', '|', ' '].intercalate xs)).map Text.trim = xs := by
  have blank : ∀ c ∈ [' '], Text.isBlank c = true := List.forall_mem_singleton.mpr (by decide)
  induction xs with
  | nil => exact absurd rfl nonempty
  | cons x xs ih =>
      obtain ⟨⟨plain, inside⟩, later⟩ := List.forall_mem_cons.mp solid
      cases xs with
      | nil =>
          have trimmed : Text.trim ([' '] ++ (x ++ [])) = x :=
            Text.trim_padded blank (by simp) inside
          rw [List.intercalate_singleton, splitBars_of_plain (by simpa using plain)]
          simpa using trimmed
      | cons y ys =>
          have joined : ' ' :: [' ', '|', ' '].intercalate (x :: y :: ys) =
              ([' '] ++ (x ++ [' '])) ++ '|' :: ' ' :: [' ', '|', ' '].intercalate (y :: ys) := by
            simp [List.intercalate_cons_cons]
          rw [joined, splitBars_append (by simpa using plain), List.map_cons,
            Text.trim_padded blank blank inside, ih (by simp) later]

/-! ### Rules -/

/-- A production as rules list them: of a capital letter and an output that can be read back. -/
structure IsListed (p : Production) : Prop where
  head : ∃ c : Char, ('A' ≤ c ∧ c ≤ 'Z') ∧ p.head = Symbol.ofChar c
  output : p.output.IsListed

theorem isListed_of_parseRule (read : parseRule rule = .ok ps) : ∀ p ∈ ps, IsListed p := by
  unfold parseRule at read
  split at read
  · cases read
  · rename_i left right _
    split at read
    · cases read
    · rename_i head named
      cases read
      intro p member
      obtain ⟨part, inside, rfl⟩ := List.mem_map.mp member
      have plain := bar_not_mem_of_mem_splitBars inside
      refine ⟨?_, Form.isListed_ofChars fun bar => plain (Text.mem_of_mem_trim bar)⟩
      unfold headOf? at named
      split at named
      · split at named
        · cases named
          exact ⟨_, ‹_›, rfl⟩
        · cases named
      · cases named

theorem addRule_ok (read : g.addRule rule = .ok h) :
    ∃ ps : List Production, (∀ p ∈ ps, IsListed p) ∧ h = ps.foldl add g := by
  unfold addRule at read
  cases parsed : parseRule rule with
  | error e =>
      rw [parsed] at read
      cases read
  | ok ps =>
      rw [parsed] at read
      cases read
      exact ⟨ps, isListed_of_parseRule parsed, rfl⟩

/-- A grammar of rules consists of the productions that they list. -/
theorem ofRules_ok (built : ofRules rules = .ok g) :
    ∃ ps : List Production, (∀ p ∈ ps, IsListed p) ∧ g = ps.foldl add empty := by
  unfold ofRules at built
  generalize empty = start at built ⊢
  induction rules generalizing start with
  | nil =>
      cases built
      exact ⟨[], by simp, rfl⟩
  | cons rule rules ih =>
      rw [List.foldlM_cons] at built
      cases added : start.addRule rule with
      | error e =>
          rw [added] at built
          cases built
      | ok next =>
          rw [added] at built
          obtain ⟨ps, first, rfl⟩ := addRule_ok added
          obtain ⟨qs, later, rfl⟩ := ih _ built
          exact ⟨ps ++ qs, by simpa [or_imp, forall_and] using ⟨first, later⟩, by simp⟩

theorem ofRules_map {ls : List String} {text : String → String} {f : String → List Production}
    (reads : ∀ v ∈ ls, parseRule (text v) = .ok (f v)) :
    ofRules (ls.map text) = .ok ((ls.flatMap f).foldl add empty) := by
  unfold ofRules
  generalize empty = start
  induction ls generalizing start with
  | nil => rfl
  | cons v ls ih =>
      obtain ⟨first, later⟩ := List.forall_mem_cons.mp reads
      have added : start.addRule (text v) = .ok ((f v).foldl add start) := by
        rw [addRule, first]
        rfl
      rw [List.map_cons, List.foldlM_cons, added, List.flatMap_cons, List.foldl_append]
      exact ih later _

theorem mem_heads_foldl_add :
    v ∈ (ps.foldl add g).heads ↔ v ∈ g.heads ∨ ∃ p ∈ ps, p.head = v := by
  induction ps generalizing g with
  | nil => simp
  | cons q ps ih =>
      rw [List.foldl_cons, ih]
      simp [add, or_assoc, or_left_comm, eq_comm]

theorem mem_heads_foldl_empty : v ∈ (ps.foldl add empty).heads ↔ ∃ p ∈ ps, p.head = v := by
  simp [mem_heads_foldl_add, empty, SortedSet.not_mem_empty]

theorem mem_productions_foldl_empty : p ∈ (ps.foldl add empty).productions ↔ p ∈ ps := by
  simp [mem_productions_foldl_add, empty, SortedSet.not_mem_empty]

/-- A grammar of productions does not depend on their order or on repetitions. -/
theorem foldl_add_congr (same : ∀ p, p ∈ ps ↔ p ∈ qs) :
    ps.foldl add empty = qs.foldl add empty := by
  have heads : (ps.foldl add empty).heads = (qs.foldl add empty).heads :=
    SortedSet.ext fun v => by simp only [mem_heads_foldl_empty, same]
  have productions : (ps.foldl add empty).productions = (qs.foldl add empty).productions :=
    SortedSet.ext fun p => by simp only [mem_productions_foldl_empty, same]
  cases first : ps.foldl add empty
  cases second : qs.foldl add empty
  simp_all

/-! ### Printed rules -/

/-- What it takes to read a grammar back from its text. -/
structure IsPrintable (g : Grammar) : Prop where
  head : ∀ v ∈ g.heads, ∃ c : Char, ('A' ≤ c ∧ c ≤ 'Z') ∧ v = Symbol.ofChar c
  expands : ∀ v ∈ g.heads, ∃ f, f ∈ g.outputs v
  output : ∀ p ∈ g.productions, p.output.IsListed
  solid : ∀ p ∈ g.productions, ∀ c ∈ p.output.text.toList, Text.isBlank c = false

/-- A grammar of rules is printable as long as its outputs hold no blanks. -/
theorem isPrintable_of_ofRules (built : ofRules rules = .ok g)
    (solid : ∀ p ∈ g.productions, ∀ c ∈ p.output.text.toList, Text.isBlank c = false) :
    g.IsPrintable := by
  obtain ⟨ps, listed, rfl⟩ := ofRules_ok built
  refine ⟨fun v member => ?_, fun v member => ?_, fun p member => ?_, solid⟩
  · obtain ⟨p, inside, rfl⟩ := mem_heads_foldl_empty.mp member
    exact (listed p inside).head
  · obtain ⟨p, inside, rfl⟩ := mem_heads_foldl_empty.mp member
    exact ⟨p.output, mem_outputs.mpr (mem_productions_foldl_empty.mpr inside)⟩
  · exact (listed p (mem_productions_foldl_empty.mp member)).output

theorem ofString_outputText {f : Form} (listed : f.IsListed) :
    Form.ofString (outputText f) = f := by
  unfold outputText
  split
  · rename_i nothing
    have read := listed.read
    rw [nothing] at read
    rw [← read]
    decide
  · exact listed.read

theorem mem_outputTexts {t : String} :
    t ∈ g.outputTexts v ↔ ∃ f ∈ g.outputs v, outputText f = t := by
  simp [outputTexts]

theorem toList_ruleText {c : Char} : (g.ruleText (Symbol.ofChar c)).toList =
    c :: ' ' :: '-' :: '>' :: ' ' ::
      [' ', '|', ' '].intercalate ((g.outputTexts (Symbol.ofChar c)).map String.toList) := by
  simp [ruleText, Symbol.ofChar, String.toList_intercalate]

/-- The first arrow of a line is the one behind the nonterminal. -/
theorem splitArrow_ruleText {c : Char} : splitArrow (g.ruleText (Symbol.ofChar c)).toList =
    some ([c, ' '], ' ' :: [' ', '|', ' '].intercalate
      ((g.outputTexts (Symbol.ofChar c)).map String.toList)) := by
  simp [toList_ruleText, splitArrow]

theorem mem_of_mem_intercalate {d : Char} {xs : List (List Char)} (member : d ∈ cs.intercalate xs) :
    d ∈ cs ∨ ∃ x ∈ xs, d ∈ x := by
  induction xs with
  | nil => cases member
  | cons x xs ih =>
      cases xs with
      | nil => simpa using Or.inr member
      | cons y ys =>
          rw [List.intercalate_cons_cons, List.mem_append, List.mem_append] at member
          rcases member with (inside | between) | later
          · exact .inr ⟨x, List.mem_cons_self, inside⟩
          · exact .inl between
          · exact (ih later).imp_right fun ⟨z, inside, member⟩ =>
              ⟨z, List.mem_cons_of_mem _ inside, member⟩

theorem parseRule_of_split {left right : List Char}
    (arrow : splitArrow rule.toList = some (left, right))
    (named : headOf? (Text.trim left) = some v) : parseRule rule =
      .ok (((splitBars right).map Text.trim).map fun part => ⟨v, Form.ofChars part⟩) := by
  simp [parseRule, arrow, named]

namespace IsPrintable

variable (printable : g.IsPrintable)

include printable

theorem solid_outputTexts : ∀ x ∈ (g.outputTexts v).map String.toList,
    '|' ∉ x ∧ ∀ c ∈ x, Text.isBlank c = false := by
  intro x member
  obtain ⟨t, inside, rfl⟩ := List.mem_map.mp member
  obtain ⟨f, produced, rfl⟩ := mem_outputTexts.mp inside
  have production := mem_outputs.mp produced
  unfold outputText
  split
  · exact ⟨by decide, List.forall_mem_singleton.mpr (by decide)⟩
  · exact ⟨(printable.output _ production).bar_not_mem, printable.solid _ production⟩

/-- The line of a nonterminal is read as its productions. -/
theorem parseRule_ruleText (member : v ∈ g.heads) : parseRule (g.ruleText v) =
    .ok ((g.outputTexts v).map fun t => ⟨v, Form.ofString t⟩) := by
  obtain ⟨c, capital, rfl⟩ := printable.head v member
  obtain ⟨f, produced⟩ := printable.expands _ member
  have nonempty : (g.outputTexts (Symbol.ofChar c)).map String.toList ≠ [] := by
    have inside := mem_outputTexts.mpr ⟨f, produced, rfl⟩
    simpa using List.ne_nil_of_mem inside
  have solid : ∀ d ∈ [c], Text.isBlank d = false := by
    simpa using Text.not_isBlank_of_capital capital.1 capital.2
  have head : Text.trim ([] ++ ([c] ++ [' '])) = [c] :=
    Text.trim_padded (by simp) (List.forall_mem_singleton.mpr (by decide)) solid
  have named : headOf? (Text.trim [c, ' ']) = some (Symbol.ofChar c) := by
    rw [show Text.trim [c, ' '] = [c] from head, headOf?, if_pos capital]
  rw [parseRule_of_split splitArrow_ruleText named,
    trim_splitBars nonempty printable.solid_outputTexts, List.map_map]
  rfl

/-- Nothing in the line of a nonterminal ends a line. -/
theorem proper_ruleText (member : v ∈ g.heads) :
    g.ruleText v ≠ "" ∧ ∀ d ∈ (g.ruleText v).toList, Text.isLineEnd d = false := by
  obtain ⟨c, capital, rfl⟩ := printable.head v member
  have signs : ∀ d ∈ [' ', '-', '>', '|'], Text.isLineEnd d = false := by
    simp [Text.isLineEnd]
  have bars : [' ', '|', ' '] ⊆ [' ', '-', '>', '|'] := by decide
  constructor
  · intro nothing
    have text := toList_ruleText (g := g) (c := c)
    simp [nothing] at text
  · intro d inside
    rw [toList_ruleText] at inside
    simp only [List.mem_cons] at inside
    rcases inside with rfl | rfl | rfl | rfl | rfl | inside
    · exact Text.not_isLineEnd (Text.not_isBlank_of_capital capital.1 capital.2)
    · exact signs _ (by simp)
    · exact signs _ (by simp)
    · exact signs _ (by simp)
    · exact signs _ (by simp)
    · rcases mem_of_mem_intercalate inside with sign | ⟨x, output, inside⟩
      · exact signs d (bars sign)
      · exact Text.not_isLineEnd ((printable.solid_outputTexts x output).2 d inside)

/-- The productions that are read from the lines are those that were printed. -/
theorem mem_read : p ∈ (g.heads.toList.flatMap fun v => (g.outputTexts v).map fun t =>
    (⟨v, Form.ofString t⟩ : Production)) ↔ p ∈ g.productions := by
  simp only [List.mem_flatMap, List.mem_map, SortedSet.mem_toList]
  constructor
  · rintro ⟨v, _, t, inside, rfl⟩
    obtain ⟨f, produced, rfl⟩ := mem_outputTexts.mp inside
    have production := mem_outputs.mp produced
    rwa [ofString_outputText (printable.output _ production)]
  · intro production
    refine ⟨p.head, g.head_mem p production, outputText p.output, ?_, ?_⟩
    · exact mem_outputTexts.mpr ⟨p.output, mem_outputs.mpr production, rfl⟩
    · rw [ofString_outputText (printable.output p production)]

end IsPrintable

/-- A grammar of rules whose outputs hold no blanks is read back from its text. -/
theorem ofRules_lines_text (built : ofRules rules = .ok g)
    (solid : ∀ p ∈ g.productions, ∀ c ∈ p.output.text.toList, Text.isBlank c = false) :
    ofRules (Text.lines g.text) = .ok g := by
  have printable := isPrintable_of_ofRules built solid
  have lines : Text.lines g.text = g.heads.toList.map g.ruleText := by
    refine Text.lines_intercalate fun l member => ?_
    obtain ⟨v, head, rfl⟩ := List.mem_map.mp member
    exact printable.proper_ruleText head
  have read := ofRules_map fun v head => printable.parseRule_ruleText (SortedSet.mem_toList.mp head)
  obtain ⟨ps, _, rfl⟩ := ofRules_ok built
  rw [lines, read]
  exact congrArg Except.ok
    (foldl_add_congr fun p => printable.mem_read.trans mem_productions_foldl_empty)

/-- The outputs hold the signs of an arrow and parts of one, and one nonterminal has two rules. -/
theorem ofRules_lines_text_arrows :
    ∃ g, ofRules ["S -> a->b | ε | -", "T->S|>T", "S->>"] = .ok g ∧
      (∀ p ∈ g.productions, ∀ c ∈ p.output.text.toList, Text.isBlank c = false) ∧
      g.text = "S -> - | > | a->b | ε\nT -> >T | S" ∧ ofRules (Text.lines g.text) = .ok g := by
  obtain ⟨g, built, plain, text⟩ :
      ∃ g, ofRules ["S -> a->b | ε | -", "T->S|>T", "S->>"] = .ok g ∧
        (g.productions.toList.all fun p => p.output.text.toList.all (!Text.isBlank ·)) = true ∧
        g.text = "S -> - | > | a->b | ε\nT -> >T | S" := exists_ok_of_any (by decide +kernel)
  have solid : ∀ p ∈ g.productions, ∀ c ∈ p.output.text.toList, Text.isBlank c = false := by
    simpa using plain
  exact ⟨g, built, solid, text, ofRules_lines_text built solid⟩

end Grammar

end Automata
