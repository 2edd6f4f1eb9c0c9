import Automata.Proofs.CFG.Sample

/-! # When a listing stops

A listing of limited length stops once it has found enough words or nothing is pending any more.
It does not notice that what is pending derives no words, so where the language has too few words
it stops only if leftmost expansions lead to finitely many forms.
-/

namespace Automata

variable {g : Grammar} {c : CFG} {origin f : Form} {s : Sampler} {es : List Element}
  {w : List Char} {size n : Nat}

namespace Sampler

/-- Until it is done a listing of limited length is the one without a limit. -/
theorem isDone_or_run_eq (g : Grammar) (size n : Nat) (s : Sampler) :
    (run g (some size) n s).isDone (some size) = true ∨
      run g (some size) n s = run g none n s := by
  induction n generalizing s with
  | zero => exact .inr rfl
  | succ n ih =>
      cases isDone : s.isDone (some size) with
      | true => exact .inl (by rwa [run_of_isDone isDone])
      | false =>
          have rest : s.isDone none = false := by
            rw [Sampler.isDone, Bool.or_eq_false_iff] at isDone
            simpa [Sampler.isDone] using isDone.1
          rw [run_of_not_isDone isDone, run_of_not_isDone rest]
          exact ih _

/-- The forms of a listing are those that leftmost expansions lead to, some of them. -/
theorem leftmost_of_mem_seen (known : f ∈ (run g none n (ofOrigin origin)).seen) :
    g.Leftmost origin f := by
  have kept : Listed g origin (run g none n (ofOrigin origin)) ∧
      ∀ f ∈ (run g none n (ofOrigin origin)).seen, g.Leftmost origin f := by
    refine run_induction
      (motive := fun s => Listed g origin s ∧ ∀ f ∈ s.seen, g.Leftmost origin f)
      ⟨listed_ofOrigin, fun f known => SortedSet.mem_singleton.mp known ▸ .refl⟩ ?_ none n
    intro s f t ⟨listed, leads⟩ look
    refine ⟨listed.look look, fun h known => ?_⟩
    obtain old | expanded := (look.mem_seen h).mp known
    · exact leads h old
    · exact (leads f (listed.seen_of_pending f look.mem)).tail expanded
  exact kept.2 f known

/-- Once nothing is pending, every form that leftmost expansions lead to is known. -/
theorem Listed.mem_seen_of_leftmost (listed : Listed g origin s) (idle : ∀ f, f ∉ s.pending)
    (leads : g.Leftmost origin f) : f ∈ s.seen := by
  induction leads with
  | refl => exact listed.origin_mem
  | tail _ expanded ih => exact listed.expanded _ ⟨ih, idle _⟩ _ expanded

/-- With finitely many forms to look at, nothing is pending some time. -/
theorem exists_idle (finite : {f | g.Leftmost origin f}.Finite) :
    ∃ n, ∀ f, f ∉ (run g none n (ofOrigin origin)).pending := by
  by_contra never
  have busy n : ∃ f, f ∈ (run g none n (ofOrigin origin)).pending := by
    by_contra none
    exact never ⟨n, fun f pending => none ⟨f, pending⟩⟩
  obtain ⟨popped, injective, look⟩ := exists_looks listed_ofOrigin busy
  have leads n : g.Leftmost origin (popped n) :=
    leftmost_of_mem_seen ((listed_ofOrigin.run none n).seen_of_pending _ (look n).mem)
  exact Set.infinite_of_injective_forall_mem injective leads finite

end Sampler

open Sampler

namespace CFG

/-- After some number of looks the listing of a number of words is done. -/
def Stops (c : CFG) (size : Nat) : Prop :=
  ∃ pops, (run c.grammar (some size) pops (ofOrigin c.origin)).isDone (some size) = true

/-- The language has a number of words, or more of them. -/
def HasWords (c : CFG) (size : Nat) : Prop :=
  ∃ words : List (List Char), words.Nodup ∧ words.length = size ∧ ∀ w ∈ words, c.Generates w

/-- All of finitely many words are found some time. -/
theorem exists_found_all {words : List (List Char)} (generated : ∀ w ∈ words, c.Generates w) :
    ∃ pops, ∀ w ∈ words, String.ofList w ∈ c.sampleWithin none pops := by
  induction words with
  | nil => exact ⟨0, fun w member => absurd member List.not_mem_nil⟩
  | cons w words ih =>
      have initial : Listed c.grammar c.origin (ofOrigin c.origin) := listed_ofOrigin
      obtain ⟨first, found⟩ := exists_found initial initial.origin_mem (generated w (by simp))
      obtain ⟨others, all⟩ := ih fun v member => generated v (List.mem_cons_of_mem w member)
      refine ⟨max first others, List.forall_mem_cons.mpr ⟨?_, fun v member => ?_⟩⟩
      · exact (sampleWithin_grows (Nat.le_max_left ..)).subset (mem_sampleWithin.mpr found)
      · exact (sampleWithin_grows (Nat.le_max_right ..)).subset (all v member)

theorem stops_of_hasWords (words : c.HasWords size) : c.Stops size := by
  obtain ⟨words, nodup, length, generated⟩ := words
  obtain ⟨pops, found⟩ := exists_found_all generated
  have texts : (words.map String.ofList).Nodup :=
    nodup.map fun _ _ same => String.ofList_inj.mp same
  have inside : words.map String.ofList ⊆ c.sampleWithin none pops := by
    intro text member
    obtain ⟨w, word, rfl⟩ := List.mem_map.mp member
    exact found w word
  have enough : size ≤ (c.sampleWithin none pops).length := by
    rw [← length, ← List.length_map String.ofList]
    exact (List.subperm_of_subset texts inside).length_le
  have full : (c.sampleWithin (some size) pops).length = size := by
    rw [sampleWithin_some, List.length_take, Nat.min_eq_left enough]
  rw [sampleWithin, List.length_reverse] at full
  exact ⟨pops, by simp [Sampler.isDone, full]⟩

theorem stops_of_finite (finite : {f | c.grammar.Leftmost c.origin f}.Finite) : c.Stops size := by
  obtain ⟨pops, idle⟩ := exists_idle finite
  obtain isDone | same := isDone_or_run_eq c.grammar size pops (ofOrigin c.origin)
  · exact ⟨pops, isDone⟩
  · have empty : (run c.grammar none pops (ofOrigin c.origin)).pending.isEmpty = true :=
      List.isEmpty_iff.mpr (List.eq_nil_iff_forall_not_mem.mpr idle)
    exact ⟨pops, by rw [same, Sampler.isDone, empty, Bool.true_or]⟩

theorem hasWords_or_finite_of_stops (stops : c.Stops size) :
    c.HasWords size ∨ {f | c.grammar.Leftmost c.origin f}.Finite := by
  obtain ⟨pops, isDone⟩ := stops
  have listed : Listed c.grammar c.origin
    (run c.grammar (some size) pops (ofOrigin c.origin)) := listed_ofOrigin.run _ pops
  obtain empty | full :
      (run c.grammar (some size) pops (ofOrigin c.origin)).pending.isEmpty = true ∨
        size ≤ (c.sampleWithin (some size) pops).length := by
    simpa [Sampler.isDone, sampleWithin] using isDone
  · right
    have idle := List.eq_nil_iff_forall_not_mem.mp (List.isEmpty_iff.mp empty)
    exact (List.finite_toSet _).subset fun f leads => listed.mem_seen_of_leftmost idle leads
  · left
    refine ⟨((c.sampleWithin (some size) pops).take size).map String.toList, ?_, ?_, ?_⟩
    · refine List.Nodup.map (fun _ _ same => String.toList_inj.mp same) ?_
      exact (List.nodup_reverse.mpr listed.nodup).sublist (List.take_sublist _ _)
    · rw [List.length_map, List.length_take, Nat.min_eq_left full]
    · intro w member
      obtain ⟨text, taken, rfl⟩ := List.mem_map.mp member
      exact generates_of_mem_sampleWithin (List.mem_of_mem_take taken)

/-- A listing of limited length stops exactly if the language has as many words or leftmost
    expansions lead to finitely many forms. A limit that is too large to be asked for is refused
    before anything is looked at. -/
theorem stops_iff (c : CFG) (size : Nat) :
    (c.Stops size ↔ c.HasWords size ∨ {f | c.grammar.Leftmost c.origin f}.Finite) ∧
      (largestLimit < size → c.sample (some size) = .error (.badLimit size)) := by
  refine ⟨⟨hasWords_or_finite_of_stops, ?_⟩, fun large => if_pos (.inr large)⟩
  rintro (words | finite)
  · exact stops_of_hasWords words
  · exact stops_of_finite finite

/-- Where every output holds a nonterminal, no word is spelled from one. -/
theorem spells_terminals_only (unfinished : ∀ p ∈ g.productions, p.output.isComplete = false)
    (spelled : g.Spells es w) : ∀ e ∈ es, e.isTerminal = true := by
  induction spelled with
  | nil => exact fun e member => absurd member List.not_mem_nil
  | terminal _ ih => exact List.forall_mem_cons.mpr ⟨rfl, ih⟩
  | @nonterminal name output es w produced _ ih =>
      have complete : output.isComplete = true :=
        List.all_eq_true.mpr fun e member => ih e (List.mem_append_left es member)
      rw [unfinished _ (Grammar.mem_outputs.mp produced)] at complete
      cases complete

/-- The forms `aⁿS` of a grammar without words: not even one word is listed, without end. -/
theorem not_stops_unproductive :
    ∃ c, ofRules ["S -> aS"] "S" = .ok c ∧ ¬ c.Stops 1 := by
  obtain ⟨c, read, start, produced, unfinished⟩ : ∃ c, ofRules ["S -> aS"] "S" = .ok c ∧
      c.start = "S" ∧ ⟨[.terminal 'a', .nonterminal "S"]⟩ ∈ c.grammar.outputs "S" ∧
        ∀ p ∈ c.grammar.productions.toList, p.output.isComplete = false :=
    exists_ofRules (by decide +kernel)
  refine ⟨c, read, fun stops => ?_⟩
  obtain ⟨words, _, one, generated⟩ | finite := hasWords_or_finite_of_stops stops
  · obtain ⟨w, rfl⟩ := List.length_eq_one_iff.mp one
    have spelled := Grammar.derives_iff_spells.mp (generated w (by simp))
    have terminal := spells_terminals_only unfinished spelled _ (List.mem_singleton.mpr rfl)
    cases terminal
  · let form (n : Nat) : Form := .after (List.replicate n 'a') [.nonterminal "S"]
    have injective : Function.Injective form := by
      intro m n same
      simpa [form, Form.after] using congrArg (fun f => f.elements.length) same
    have leads n : c.grammar.Leftmost c.origin (form n) := by
      induction n with
      | zero =>
          rw [origin, start]
          exact .refl
      | succ n ih =>
          refine ih.tail (Grammar.mem_expandFirst_after.mpr ⟨_, produced, ?_⟩)
          simp only [form, List.replicate_succ', ← Form.after_terminal]
          rfl
    exact Set.infinite_of_injective_forall_mem injective leads finite

end CFG

end Automata
