import Mathlib.Data.Set.Finite.List
import Automata.CFG.Sample
import Automata.Proofs.Grammar.Leftmost

/-! # What a listing finds

A look takes the least pending form and makes the forms that it leads to pending, unless they were
before. Only finitely many forms come before a given one, and none is looked at twice, so every
form that was ever pending is looked at some time, and every word of the language is found.
-/

namespace Automata

variable {g : Grammar} {c : CFG} {origin f h : Form} {s t : Sampler} {u v w : List Char}

/-! ### Forms that come before a form -/

theorem Form.length_le_of_compare (order : compare f h ≠ .lt) :
    h.elements.length ≤ f.elements.length := by
  by_contra longer
  have below : compare f.elements.length h.elements.length = .lt :=
    Nat.compare_eq_lt.mpr (Nat.lt_of_not_le longer)
  apply order
  have whole : compare f h = (compare f.elements.length h.elements.length).then
    (compare f.elements h.elements) := rfl
  rw [whole, below]
  rfl

namespace Grammar

theorem finite_forms_before (g : Grammar) (origin f : Form) :
    {h | g.Derives origin h ∧ compare f h ≠ .lt}.Finite := by
  let known := origin.elements ++ g.productions.toList.flatMap fun p => p.output.elements
  have lists := List.finite_length_le {e // e ∈ known} f.elements.length
  refine (lists.image fun es => Form.mk (es.map Subtype.val)).subset ?_
  intro h ⟨derived, before⟩
  have inside : ∀ e ∈ h.elements, e ∈ known := by
    simpa [known] using derived.mem_elements
  refine ⟨h.elements.pmap Subtype.mk inside, ?_, ?_⟩
  · rw [Set.mem_ofPred, List.length_pmap]
    exact Form.length_le_of_compare before
  · simp [List.map_pmap]

end Grammar

namespace Sampler

/-! ### One look -/

/-- What looking at a form changes. -/
structure Look (g : Grammar) (f : Form) (s t : Sampler) : Prop where
  mem : f ∈ s.pending
  /-- The form is the least of those that are pending. -/
  least : ∀ h ∈ s.pending, h ≠ f → compare f h = .lt
  mem_seen : ∀ h, h ∈ t.seen ↔ h ∈ s.seen ∨ h ∈ g.expandFirst f
  mem_pending : ∀ h, h ∈ t.pending ↔ h ∈ s.pending ∧ h ≠ f ∨ h ∈ g.expandFirst f ∧ h ∉ s.seen
  /-- A complete form is a word that is found. -/
  found : (∃ w, f = .ofWord w ∧ t.found = String.ofList w :: s.found) ∨
    (∀ w, f ≠ .ofWord w) ∧ t.found = s.found

/-- A step looks at a form, if any is pending. -/
theorem step_cases (g : Grammar) (s : Sampler) :
    s.pending.isEmpty = true ∧ s.step g = s ∨ ∃ f, Look g f s (s.step g) := by
  cases least : s.pending.toList with
  | nil =>
      left
      rw [SortedSet.isEmpty, step, least]
      exact ⟨rfl, rfl⟩
  | cons f fs =>
      right
      have mem : f ∈ s.pending := by
        rw [← SortedSet.mem_toList, least]
        exact List.mem_cons_self
      refine ⟨f, ?_⟩
      rw [step, least]
      obtain ⟨w, rfl⟩ | ⟨u, name, es, rfl⟩ := f.eq_ofWord_or_eq_after
      · simp only [Form.firstNonterminal?_ofWord, Form.text_ofWord]
        exact {
          mem := mem
          least := fun h => SortedSet.compare_of_least least
          mem_seen := fun h => by simp [Grammar.not_mem_expandFirst_ofWord]
          mem_pending := fun h => by
            simp [Grammar.not_mem_expandFirst_ofWord, SortedSet.mem_rest least]
          found := .inl ⟨w, rfl, rfl⟩ }
      · have expanded : g.expandFirst (.after u (.nonterminal name :: es)) =
            g.expandAt (.after u (.nonterminal name :: es)) u.length := by
          rw [Grammar.expandFirst, Form.firstNonterminal?_after]
        simp only [Form.firstNonterminal?_after, ← expanded]
        exact {
          mem := mem
          least := fun h => SortedSet.compare_of_least least
          mem_seen := fun h => by
            rw [SortedSet.mem_union, SortedSet.mem_diff]
            tauto
          mem_pending := fun h => by
            rw [SortedSet.mem_union, SortedSet.mem_diff, SortedSet.mem_rest least, or_comm]
          found := .inr ⟨fun w => Form.after_ne_ofWord, rfl⟩ }

/-- What every look keeps is kept by a step. -/
theorem step_induction {motive : Sampler → Prop} (start : motive s)
    (look : ∀ f t, Look g f s t → motive t) : motive (s.step g) := by
  obtain ⟨_, idle⟩ | ⟨f, changed⟩ := step_cases g s
  · rwa [idle]
  · exact look f _ changed

namespace Look

theorem found_suffix (look : Look g f s t) : s.found <:+ t.found := by
  obtain ⟨w, _, found⟩ | ⟨_, found⟩ := look.found
  · exact found ▸ List.suffix_cons _ _
  · rw [found]

theorem length_found_le (look : Look g f s t) : t.found.length ≤ s.found.length + 1 := by
  obtain ⟨w, _, found⟩ | ⟨_, found⟩ := look.found
  · rw [found, List.length_cons]
  · rw [found]
    omega

theorem seen_mono (look : Look g f s t) (known : h ∈ s.seen) : h ∈ t.seen :=
  (look.mem_seen h).mpr (.inl known)

end Look

/-! ### Many looks -/

section Run

variable {limit : Option Nat} {m n : Nat}

/-- What every look keeps is kept by a listing. -/
theorem run_induction {motive : Sampler → Prop} (start : motive s)
    (look : ∀ {s f t}, motive s → Look g f s t → motive t) (limit : Option Nat) (pops : Nat) :
    motive (run g limit pops s) := by
  induction pops generalizing s with
  | zero => exact start
  | succ pops ih =>
      rw [run]
      split
      · exact start
      · exact ih (step_induction start fun _ _ => look start)

theorem run_of_isDone (isDone : s.isDone limit = true) : run g limit n s = s := by
  cases n with
  | zero => rfl
  | succ n => rw [run, if_pos isDone]

theorem run_of_not_isDone (isDone : s.isDone limit = false) :
    run g limit (n + 1) s = run g limit n (s.step g) := by
  rw [run, isDone, if_neg Bool.false_ne_true]

theorem run_add : run g limit (m + n) s = run g limit n (run g limit m s) := by
  induction m generalizing s with
  | zero => rw [Nat.zero_add, run]
  | succ m ih =>
      rw [Nat.add_right_comm]
      cases isDone : s.isDone limit with
      | true => rw [run_of_isDone isDone, run_of_isDone isDone, run_of_isDone isDone]
      | false => rw [run_of_not_isDone isDone, run_of_not_isDone isDone, ih]

/-- Without a limit, one more look is one more step. -/
theorem run_succ : run g none (n + 1) s = (run g none n s).step g := by
  rw [run_add]
  generalize run g none n s = s
  cases isDone : s.isDone none with
  | true =>
      have empty : s.pending.toList = [] := by
        simpa [Sampler.isDone, SortedSet.isEmpty] using isDone
      rw [run_of_isDone isDone, step, empty]
  | false => rw [run_of_not_isDone isDone, run]

/-- What is found stays found. -/
theorem found_suffix_run : s.found <:+ (run g limit n s).found :=
  run_induction (motive := fun t => s.found <:+ t.found) List.suffix_rfl
    (fun kept look => kept.trans look.found_suffix) limit n

/-- A limit cuts the listing off. -/
theorem found_run_some {size : Nat} (short : s.found.length ≤ size) :
    (run g (some size) n s).found.reverse = (run g none n s).found.reverse.take size := by
  induction n generalizing s with
  | zero =>
      rw [run, run, List.take_of_length_le]
      rwa [List.length_reverse]
  | succ n ih =>
      cases isDone : s.isDone (some size) with
      | true =>
          rw [run_of_isDone isDone]
          obtain empty | full : s.isDone none = true ∨ size ≤ s.found.length := by
            simpa [Sampler.isDone] using isDone
          · rw [run_of_isDone empty, List.take_of_length_le]
            rwa [List.length_reverse]
          · have before : s.found.reverse <+: (run g none (n + 1) s).found.reverse :=
              List.reverse_prefix.mpr found_suffix_run
            rw [List.prefix_iff_eq_take, List.length_reverse, short.antisymm full] at before
            exact before
      | false =>
          obtain ⟨rest, room⟩ : s.isDone none = false ∧ s.found.length < size := by
            simpa [Sampler.isDone] using isDone
          rw [run_of_not_isDone isDone, run_of_not_isDone rest]
          exact ih (step_induction short fun _ _ look => look.length_found_le.trans room)

end Run

/-! ### What every listing keeps -/

/-- The form was pending once and was looked at since. -/
def LookedAt (s : Sampler) (f : Form) : Prop := f ∈ s.seen ∧ f ∉ s.pending

/-- How the forms and the words of a listing hang together. -/
structure Listed (g : Grammar) (origin : Form) (s : Sampler) : Prop where
  origin_mem : origin ∈ s.seen
  seen_of_pending : ∀ f ∈ s.pending, f ∈ s.seen
  derives : ∀ f ∈ s.seen, g.Derives origin f
  expanded : ∀ f, s.LookedAt f → ∀ h ∈ g.expandFirst f, h ∈ s.seen
  mem_found : ∀ w, String.ofList w ∈ s.found ↔ s.LookedAt (.ofWord w)
  nodup : s.found.Nodup

theorem listed_ofOrigin : Listed g origin (ofOrigin origin) where
  origin_mem := SortedSet.mem_singleton.mpr rfl
  seen_of_pending _ pending := pending
  derives _ known := SortedSet.mem_singleton.mp known ▸ .refl
  expanded _ looked := absurd looked.1 looked.2
  mem_found _ :=
    ⟨fun found => absurd found List.not_mem_nil, fun looked => absurd looked.1 looked.2⟩
  nodup := .nil

theorem Listed.lookedAt_iff (listed : Listed g origin s) (look : Look g f s t) :
    t.LookedAt h ↔ s.LookedAt h ∨ h = f := by
  have mem := look.mem
  have known := listed.seen_of_pending f mem
  rw [LookedAt, LookedAt, look.mem_seen, look.mem_pending]
  by_cases same : h = f
  · subst same
    tauto
  · tauto

theorem Listed.look (listed : Listed g origin s) (look : Look g f s t) : Listed g origin t where
  origin_mem := look.seen_mono listed.origin_mem
  seen_of_pending h pending := by
    obtain ⟨pending, _⟩ | ⟨expanded, _⟩ := (look.mem_pending h).mp pending
    · exact look.seen_mono (listed.seen_of_pending h pending)
    · exact (look.mem_seen h).mpr (.inr expanded)
  derives h known := by
    obtain known | expanded := (look.mem_seen h).mp known
    · exact listed.derives h known
    · have before := listed.derives f (listed.seen_of_pending f look.mem)
      exact before.trans (.single (Grammar.expandFirst_subset expanded))
  expanded h looked k expanded := by
    obtain looked | rfl := (listed.lookedAt_iff look).mp looked
    · exact look.seen_mono (listed.expanded h looked k expanded)
    · exact (look.mem_seen k).mpr (.inr expanded)
  mem_found w := by
    rw [listed.lookedAt_iff look, ← listed.mem_found]
    obtain ⟨v, rfl, found⟩ | ⟨incomplete, found⟩ := look.found
    · rw [found, List.mem_cons, or_comm, String.ofList_inj, Form.ofWord_inj]
    · rw [found, or_iff_left fun same => incomplete w same.symm]
  nodup := by
    obtain ⟨v, rfl, found⟩ | ⟨_, found⟩ := look.found
    · rw [found, List.nodup_cons, listed.mem_found]
      exact ⟨fun looked => looked.2 look.mem, listed.nodup⟩
    · rw [found]
      exact listed.nodup

theorem Listed.run (listed : Listed g origin s) (limit : Option Nat) (n : Nat) :
    Listed g origin (run g limit n s) :=
  run_induction listed Listed.look limit n

/-- A word derived from a known form is found, or it is derived from a form that is pending. -/
theorem Listed.found_or_pending (listed : Listed g origin s) (known : f ∈ s.seen)
    (derived : g.Derives f (.ofWord w)) :
    String.ofList w ∈ s.found ∨ ∃ h ∈ s.pending, g.Derives h (.ofWord w) := by
  rw [Grammar.derives_iff_leftmost] at derived
  induction derived using Relation.ReflTransGen.head_induction_on with
  | refl =>
      by_cases pending : .ofWord w ∈ s.pending
      · exact .inr ⟨_, pending, .refl⟩
      · exact .inl ((listed.mem_found w).mpr ⟨known, pending⟩)
  | @head f h expanded rest ih =>
      by_cases pending : f ∈ s.pending
      · exact .inr ⟨f, pending, Grammar.derives_iff_leftmost.mpr (.head expanded rest)⟩
      · exact ih (listed.expanded f ⟨known, pending⟩ h expanded)

/-! ### Every form is looked at -/

theorem LookedAt.look (looked : s.LookedAt h) (look : Look g f s t) : t.LookedAt h := by
  refine ⟨look.seen_mono looked.1, fun pending => ?_⟩
  obtain ⟨pending, _⟩ | ⟨_, fresh⟩ := (look.mem_pending h).mp pending
  · exact looked.2 pending
  · exact fresh looked.1

theorem LookedAt.run (looked : s.LookedAt f) (n : Nat) : (run g none n s).LookedAt f :=
  run_induction (motive := fun t => t.LookedAt f) looked LookedAt.look none n

theorem mem_seen_run (known : f ∈ s.seen) (n : Nat) : f ∈ (run g none n s).seen :=
  run_induction (motive := fun t => f ∈ t.seen) known
    (fun known look => look.seen_mono known) none n

/-- As long as something is pending a form is looked at, and another one each time. -/
theorem exists_looks (listed : Listed g origin s) (busy : ∀ n, ∃ f, f ∈ (run g none n s).pending) :
    ∃ popped : Nat → Form, Function.Injective popped ∧
      ∀ n, Look g (popped n) (run g none n s) (run g none (n + 1) s) := by
  have looks n : ∃ h, Look g h (run g none n s) (run g none (n + 1) s) := by
    obtain ⟨empty, _⟩ | look := step_cases g (run g none n s)
    · obtain ⟨f, pending⟩ := busy n
      rw [← SortedSet.mem_toList, List.isEmpty_iff.mp empty] at pending
      cases pending
    · rwa [run_succ]
  choose popped look using looks
  refine ⟨popped, .of_lt_imp_ne fun m n order same => ?_, look⟩
  obtain ⟨k, rfl⟩ := Nat.exists_eq_add_of_lt order
  have looked : (run g none (m + 1) s).LookedAt (popped m) :=
    ((listed.run none m).lookedAt_iff (look m)).mpr (.inr rfl)
  have still := looked.run (g := g) k
  rw [← run_add, Nat.add_right_comm, same] at still
  exact still.2 (look _).mem

/-- As long as a form is pending, another form that does not come after it is looked at. -/
theorem exists_popped (listed : Listed g origin s)
    (pending : ∀ n, f ∈ (run g none n s).pending) :
    ∃ popped : Nat → Form, Function.Injective popped ∧
      ∀ n, g.Derives origin (popped n) ∧ compare f (popped n) ≠ .lt := by
  obtain ⟨popped, injective, look⟩ := exists_looks listed fun n => ⟨f, pending n⟩
  have known n : popped n ∈ (run g none n s).seen :=
    (listed.run none n).seen_of_pending _ (look n).mem
  refine ⟨popped, injective, fun n => ⟨(listed.run none n).derives _ (known n), fun below => ?_⟩⟩
  by_cases same : f = popped n
  · simp [← same] at below
  · have above := (look n).least f (pending n) same
    rw [← Std.OrientedCmp.gt_iff_lt, below] at above
    cases above

/-- A form that is known some time is looked at some time. -/
theorem exists_lookedAt (listed : Listed g origin s) (known : f ∈ s.seen) :
    ∃ n, (run g none n s).LookedAt f := by
  by_contra never
  have pending n : f ∈ (run g none n s).pending := by
    by_contra settled
    exact never ⟨n, mem_seen_run known n, settled⟩
  obtain ⟨popped, injective, before⟩ := exists_popped listed pending
  exact Set.infinite_of_injective_forall_mem injective before
    (Grammar.finite_forms_before g origin f)

/-- A word derived from a known form is found some time. -/
theorem exists_found (listed : Listed g origin s) (known : f ∈ s.seen)
    (derived : g.Derives f (.ofWord w)) : ∃ n, String.ofList w ∈ (run g none n s).found := by
  rw [Grammar.derives_iff_leftmost] at derived
  induction derived using Relation.ReflTransGen.head_induction_on generalizing s with
  | refl =>
      obtain ⟨n, looked⟩ := exists_lookedAt listed known
      exact ⟨n, ((listed.run none n).mem_found w).mpr looked⟩
  | @head f h expanded _ ih =>
      obtain ⟨n, looked⟩ := exists_lookedAt listed known
      have listed := listed.run none n
      obtain ⟨m, found⟩ := ih listed (listed.expanded f looked h expanded)
      exact ⟨n + m, run_add ▸ found⟩

end Sampler

open Sampler

namespace CFG

theorem mem_sampleWithin {limit : Option Nat} {pops : Nat} {text : String} :
    text ∈ c.sampleWithin limit pops ↔
      text ∈ (run c.grammar limit pops (ofOrigin c.origin)).found :=
  List.mem_reverse

/-- A longer listing goes on where a shorter one stops. -/
theorem sampleWithin_grows {limit : Option Nat} {pops later : Nat} (order : pops ≤ later) :
    c.sampleWithin limit pops <+: c.sampleWithin limit later := by
  obtain ⟨more, rfl⟩ := Nat.exists_eq_add_of_le order
  rw [sampleWithin, sampleWithin, run_add]
  exact List.reverse_prefix.mpr found_suffix_run

theorem sampleWithin_some (size pops : Nat) :
    c.sampleWithin (some size) pops = (c.sampleWithin none pops).take size :=
  found_run_some (Nat.zero_le size)

theorem generates_of_mem_sampleWithin {limit : Option Nat} {pops : Nat} {text : String}
    (found : text ∈ c.sampleWithin limit pops) : c.Generates text.toList := by
  have listed : Listed c.grammar c.origin _ := listed_ofOrigin.run limit pops
  rw [mem_sampleWithin, ← String.ofList_toList (s := text), listed.mem_found] at found
  exact listed.derives _ found.1

/-- A listing finds words of the language only, none of them twice, and every one of them after
    some number of looks. -/
theorem sampleWithin_enumerates (c : CFG) :
    (∀ limit pops, (c.sampleWithin limit pops).Nodup ∧
      ∀ text ∈ c.sampleWithin limit pops, c.Generates text.toList) ∧
    ∀ w, c.Generates w → ∃ pops, ∀ later ≥ pops, String.ofList w ∈ c.sampleWithin none later := by
  have initial : Listed c.grammar c.origin (ofOrigin c.origin) := listed_ofOrigin
  constructor
  · intro limit pops
    exact ⟨List.nodup_reverse.mpr (initial.run limit pops).nodup,
      fun text => generates_of_mem_sampleWithin⟩
  · intro w generated
    obtain ⟨pops, found⟩ := exists_found initial initial.origin_mem generated
    exact ⟨pops, fun later order => (sampleWithin_grows order).subset (mem_sampleWithin.mpr found)⟩

/-- What is computed about the grammar of some rules holds of it. -/
theorem exists_ofRules {rules : List String} {start : String} {p : CFG → Prop} [DecidablePred p]
    (computed : (ofRules rules start).toOption.any (fun c => decide (p c)) = true) :
    ∃ c, ofRules rules start = .ok c ∧ p c :=
  exists_ok_of_any computed

/-- Words of matched pairs, from a grammar whose forms grow and shrink without end. -/
theorem sampleWithin_enumerates_pairs :
    ∃ c, ofRules ["S -> SS | aSb | ε"] "S" = .ok c ∧
      "" ∈ c.sampleWithin none 4 ∧ c.Generates "".toList ∧
        c.Generates "abab".toList ∧ ∃ pops, ∀ later ≥ pops, "abab" ∈ c.sampleWithin none later := by
  let outputs : List Form := [⟨[.nonterminal "S", .nonterminal "S"]⟩,
    ⟨[.terminal 'a', .nonterminal "S", .terminal 'b']⟩, ⟨[]⟩]
  obtain ⟨c, read, start, produced, found⟩ : ∃ c, ofRules ["S -> SS | aSb | ε"] "S" = .ok c ∧
      c.start = "S" ∧ (∀ f ∈ outputs, f ∈ c.grammar.outputs "S") ∧ "" ∈ c.sampleWithin none 4 :=
    exists_ofRules (by decide +kernel)
  have twice := produced ⟨[.nonterminal "S", .nonterminal "S"]⟩ (by simp [outputs])
  have wrap := produced ⟨[.terminal 'a', .nonterminal "S", .terminal 'b']⟩ (by simp [outputs])
  have stop := produced ⟨[]⟩ (by simp [outputs])
  have spelled : c.grammar.Spells [.nonterminal c.start] "abab".toList := by
    rw [start]
    exact .nonterminal twice (.nonterminal wrap (.terminal (.nonterminal stop (.terminal
      (.nonterminal wrap (.terminal (.nonterminal stop (.terminal .nil))))))))
  have generated : c.Generates "abab".toList := Grammar.derives_iff_spells.mpr spelled
  obtain ⟨sound, complete⟩ := sampleWithin_enumerates c
  exact ⟨c, read, found, (sound none 4).2 "" found, generated, complete _ generated⟩

end CFG

end Automata
