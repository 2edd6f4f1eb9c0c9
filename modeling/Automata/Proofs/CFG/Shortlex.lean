import Automata.Text.Shortlex
import Automata.Proofs.CFG.Sample

/-! # The order of a listing

Without empty outputs a form never spells a word that is shorter than the form. A complete form
that comes before another form also comes before every word spelled from it: where the two differ
first, the other form cannot hold a nonterminal, since nonterminals come before terminals. So a
listing finds the words of such a grammar in shortlex order.
-/

namespace Automata

variable {g : Grammar} {c : CFG} {f h : Form} {s t : Sampler} {es : List Element}
  {u v w : List Char}

theorem Text.shortlex_ofList (order : v.length < w.length ∨ v.length ≤ w.length ∧ v < w) :
    shortlex (.ofList v) (.ofList w) = .lt := by
  have parts : shortlex (.ofList v) (.ofList w) =
      (compare v.length w.length).then (compare (String.ofList v) (String.ofList w)) := by
    rw [← String.length_ofList (l := v), ← String.length_ofList (l := w)]
    rfl
  rw [parts, Ordering.then_eq_lt, Nat.compare_eq_lt, Nat.compare_eq_eq]
  obtain shorter | ⟨length, below⟩ := order
  · exact .inl shorter
  · obtain shorter | same := Nat.lt_or_eq_of_le length
    · exact .inl shorter
    · have texts : (String.ofList v).toList < (String.ofList w).toList := by
        rwa [String.toList_ofList, String.toList_ofList]
      exact .inr ⟨same, compareOfLessAndEq_eq_lt.mpr texts⟩

/-- No production has the empty output. -/
def Grammar.Nonerasing (g : Grammar) : Prop := ∀ p ∈ g.productions, p.output.elements ≠ []

namespace Grammar.Spells

theorem length_le (spelled : g.Spells es w) (nonerasing : g.Nonerasing) :
    es.length ≤ w.length := by
  induction spelled with
  | nil => exact Nat.le_refl 0
  | terminal _ ih => exact Nat.succ_le_succ ih
  | @nonterminal name output es w produced _ ih =>
      have nonempty : 0 < output.elements.length :=
        List.length_pos_of_ne_nil (nonerasing _ (mem_outputs.mp produced))
      rw [List.length_append] at ih
      rw [List.length_cons]
      omega

/-- Words that come before a form of their length come before the words spelled from it. -/
theorem lt_of_compare (spelled : g.Spells es w) (long : es.length ≤ v.length)
    (order : compare (v.map Element.terminal) es = .lt) : v < w := by
  induction spelled generalizing v with
  | nil => cases v <;> cases order
  | @terminal d es w _ ih =>
      cases v with
      | nil => cases long
      | cons c v =>
          rw [List.map_cons, List.compare_cons_cons, Ordering.then_eq_lt] at order
          rw [List.cons_lt_cons_iff]
          obtain below | ⟨same, order⟩ := order
          · exact .inl (Symbol.lt_of_compare_ofChar below)
          · refine .inr ⟨?_, ih (Nat.le_of_succ_le_succ long) order⟩
            exact Element.terminal.inj (Std.compare_eq_iff_eq.mp same)
  | nonterminal =>
      cases v with
      | nil => cases long
      | cons c v =>
          -- a terminal does not come before a nonterminal
          rw [List.map_cons, List.compare_cons_cons] at order
          cases order

theorem shortlex_of_compare (spelled : g.Spells h.elements w) (nonerasing : g.Nonerasing)
    (order : compare (Form.ofWord v) h = .lt) :
    Text.shortlex (.ofList v) (.ofList w) = .lt := by
  have length := spelled.length_le nonerasing
  have parts : (compare (Form.ofWord v).elements.length h.elements.length).then
    (compare (Form.ofWord v).elements h.elements) = .lt := order
  rw [Form.elements_ofWord, List.length_map, Ordering.then_eq_lt, Nat.compare_eq_lt] at parts
  obtain shorter | ⟨same, order⟩ := parts
  · exact Text.shortlex_ofList (.inl (Nat.lt_of_lt_of_le shorter length))
  · have same := Nat.compare_eq_eq.mp same
    exact Text.shortlex_ofList (.inr ⟨same ▸ length, spelled.lt_of_compare same.ge order⟩)

end Grammar.Spells

namespace Sampler

/-- The words found are in order, and what is still pending spells larger words only. -/
structure Ordered (g : Grammar) (s : Sampler) : Prop where
  /-- Words are found in ascending order. The latest one is the first of the list. -/
  sorted : s.found.Pairwise fun later earlier => Text.shortlex earlier later = .lt
  below : ∀ text ∈ s.found, ∀ f ∈ s.pending, ∀ w, g.Derives f (.ofWord w) →
    Text.shortlex text (.ofList w) = .lt

theorem ordered_ofOrigin {origin : Form} : Ordered g (ofOrigin origin) :=
  ⟨.nil, fun _ found => absurd found List.not_mem_nil⟩

theorem Ordered.look (ordered : Ordered g s) (nonerasing : g.Nonerasing) (look : Look g f s t) :
    Ordered g t := by
  -- what the form leads to was spelled from the form before, which was pending then
  have kept : ∀ text ∈ s.found, ∀ h ∈ t.pending, ∀ w, g.Derives h (.ofWord w) →
      Text.shortlex text (.ofList w) = .lt := by
    intro text found h pending w derived
    obtain ⟨pending, _⟩ | ⟨expanded, _⟩ := (look.mem_pending h).mp pending
    · exact ordered.below text found h pending w derived
    · exact ordered.below text found f look.mem w
        (.step (Grammar.expandFirst_subset expanded) derived)
  obtain ⟨v, rfl, found⟩ | ⟨_, found⟩ := look.found
  · constructor
    · rw [found, List.pairwise_cons]
      exact ⟨fun text earlier => ordered.below text earlier _ look.mem v .refl, ordered.sorted⟩
    · rw [found, List.forall_mem_cons]
      refine ⟨fun h pending w derived => ?_, kept⟩
      obtain ⟨pending, other⟩ | ⟨expanded, _⟩ := (look.mem_pending h).mp pending
      · exact (Grammar.derives_iff_spells.mp derived).shortlex_of_compare nonerasing
          (look.least h pending other)
      · exact absurd expanded Grammar.not_mem_expandFirst_ofWord
  · rw [← found] at kept
    exact ⟨found ▸ ordered.sorted, kept⟩

theorem Ordered.run (ordered : Ordered g s) (nonerasing : g.Nonerasing) (limit : Option Nat)
    (n : Nat) : Ordered g (run g limit n s) :=
  run_induction ordered (fun ordered look => ordered.look nonerasing look) limit n

end Sampler

open Sampler

namespace CFG

/-- The first words of the language in shortlex order, as many as the number says, or all words if
    there are fewer. -/
structure FirstWords (c : CFG) (size : Nat) (texts : List String) : Prop where
  sorted : texts.Pairwise fun s t => Text.shortlex s t = .lt
  generated : ∀ text ∈ texts, c.Generates text.toList
  length_le : texts.length ≤ size
  complete : ∀ w, c.Generates w → String.ofList w ∈ texts ∨
    texts.length = size ∧ ∀ text ∈ texts, Text.shortlex text (.ofList w) = .lt

section Nonerasing

variable {limit : Option Nat} {pops size : Nat} (nonerasing : c.grammar.Nonerasing)

include nonerasing

theorem sorted_sampleWithin :
    (c.sampleWithin limit pops).Pairwise fun s t => Text.shortlex s t = .lt :=
  List.pairwise_reverse.mpr (ordered_ofOrigin.run nonerasing limit pops).sorted

/-- A word of the language that is not listed is larger than every word listed. -/
theorem mem_or_larger (generated : c.Generates w) :
    String.ofList w ∈ c.sampleWithin limit pops ∨
      (run c.grammar limit pops (ofOrigin c.origin)).pending.isEmpty = false ∧
        ∀ text ∈ c.sampleWithin limit pops, Text.shortlex text (.ofList w) = .lt := by
  have listed : Listed c.grammar c.origin _ := listed_ofOrigin.run limit pops
  have ordered : Ordered c.grammar (run c.grammar limit pops (ofOrigin c.origin)) :=
    ordered_ofOrigin.run nonerasing limit pops
  simp only [mem_sampleWithin]
  obtain found | ⟨f, pending, derived⟩ := listed.found_or_pending listed.origin_mem generated
  · exact .inl found
  · refine .inr ⟨?_, fun text found => ordered.below text found f pending w derived⟩
    exact List.isEmpty_eq_false_iff_exists_mem.mpr ⟨f, pending⟩

/-- A word that is smaller than one listed is listed before it. -/
theorem mem_before_of_smaller {before after : List String} {text : String}
    (split : c.sampleWithin limit pops = before ++ text :: after) (generated : c.Generates w)
    (smaller : Text.shortlex (.ofList w) text = .lt) : String.ofList w ∈ before := by
  have not_larger : Text.shortlex text (.ofList w) ≠ .lt := Std.OrientedCmp.not_lt_of_lt smaller
  have sorted : (c.sampleWithin limit pops).Pairwise _ := sorted_sampleWithin nonerasing
  obtain found | ⟨_, larger⟩ := mem_or_larger nonerasing generated
  · rw [split, List.mem_append, List.mem_cons] at found
    rw [split, List.pairwise_append, List.pairwise_cons] at sorted
    obtain found | rfl | found := found
    · exact found
    · exact absurd smaller not_larger
    · exact absurd (sorted.2.1.1 _ found) not_larger
  · have found : text ∈ c.sampleWithin limit pops := by simp [split]
    exact absurd (larger text found) not_larger

/-- Once a listing of limited length is done, it holds the first words of the language. -/
theorem firstWords_of_isDone
    (isDone : (run c.grammar (some size) pops (ofOrigin c.origin)).isDone (some size) = true) :
    c.FirstWords size (c.sampleWithin (some size) pops) := by
  have length_le : (c.sampleWithin (some size) pops).length ≤ size := by
    rw [sampleWithin_some]
    exact List.length_take_le _ _
  refine ⟨sorted_sampleWithin nonerasing, fun text => generates_of_mem_sampleWithin, length_le,
    fun w generated => ?_⟩
  obtain found | ⟨rest, larger⟩ := mem_or_larger nonerasing generated
  · exact .inl found
  · have full : size ≤ (c.sampleWithin (some size) pops).length := by
      rw [Sampler.isDone, rest] at isDone
      simpa [sampleWithin] using isDone
    exact .inr ⟨length_le.antisymm full, larger⟩

end Nonerasing

/-- Without empty outputs a listing is in shortlex order and leaves out no word that is smaller
    than one it has, and once a listing of limited length is done it holds the first words. -/
theorem sampleWithin_shortlex (c : CFG) (nonerasing : c.grammar.Nonerasing) :
    (∀ limit pops, (c.sampleWithin limit pops).Pairwise (fun s t => Text.shortlex s t = .lt) ∧
      ∀ before text after, c.sampleWithin limit pops = before ++ text :: after →
        ∀ w, c.Generates w → Text.shortlex (.ofList w) text = .lt → String.ofList w ∈ before) ∧
    ∀ size pops,
      (run c.grammar (some size) pops (ofOrigin c.origin)).isDone (some size) = true →
        c.FirstWords size (c.sampleWithin (some size) pops) :=
  ⟨fun _ _ => ⟨sorted_sampleWithin nonerasing,
    fun _ _ _ split _ => mem_before_of_smaller nonerasing split⟩,
    fun _ _ => firstWords_of_isDone nonerasing⟩

/-- The first words over two letters, of a grammar with a unit production and two ways to read most
    of its words. The listing of four words is done after twenty pops. -/
theorem sampleWithin_shortlex_letters :
    ∃ c, ofRules ["S -> SS | T", "T -> b | a"] "S" = .ok c ∧ c.grammar.Nonerasing ∧
      (run c.grammar (some 4) 20 (ofOrigin c.origin)).isDone (some 4) = true ∧
      c.sampleWithin (some 4) 20 = ["a", "b", "aa", "ab"] ∧
      c.FirstWords 4 (c.sampleWithin (some 4) 20) ∧
      ∀ w, c.Generates w → Text.shortlex (.ofList w) "aa" = .lt → String.ofList w ∈ ["a", "b"] := by
  obtain ⟨c, read, nonerasing, isDone, listed⟩ :
      ∃ c, ofRules ["S -> SS | T", "T -> b | a"] "S" = .ok c ∧
        (∀ p ∈ c.grammar.productions.toList, p.output.elements ≠ []) ∧
          (run c.grammar (some 4) 20 (ofOrigin c.origin)).isDone (some 4) = true ∧
            c.sampleWithin (some 4) 20 = ["a", "b", "aa", "ab"] :=
    exists_ofRules (by decide +kernel)
  obtain ⟨order, first⟩ := sampleWithin_shortlex c nonerasing
  exact ⟨c, read, nonerasing, isDone, listed, first 4 20 isDone,
    (order (some 4) 20).2 ["a", "b"] "aa" ["ab"] listed⟩

end CFG

end Automata
