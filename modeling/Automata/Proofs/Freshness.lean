import Automata.Allocator.History
import Automata.Proofs.DFA.Language
import Automata.Proofs.GNFA.OfNFA

/-! # Every free name, once and in order

The search for a name always ends, for only so many names are reserved. So an allocator goes through
the free numbers in order, and as long as they are all allowed it leaves none of them out. A request
that fails does so because it came to a number that is not allowed.
-/

namespace Automata.Allocator

open Building

variable {a b c : Allocator} {i j k n : Int} {ps qs : List State}

/-! ### The search for a name -/

namespace Search

theorem le (search : a.Search i j) : i ≤ j := by
  induction search with
  | stop _ => exact Int.le_refl _
  | pass _ _ _ ih => omega

theorem passed (search : a.Search i j) (low : i ≤ k) (high : k < j) :
    a.allows k = true ∧ a.state k ∈ a.reserved := by
  induction search with
  | stop _ => omega
  | @pass i j allowed taken _ ih =>
      rcases Int.lt_or_eq_of_le low with later | rfl
      · exact ih later high
      · exact ⟨allowed, taken⟩

theorem stopped (search : a.Search i j) : ¬ (a.allows j = true ∧ a.state j ∈ a.reserved) := by
  induction search with
  | stop free => exact free
  | pass _ _ _ ih => exact ih

theorem unique (first : a.Search i j) (second : a.Search i k) : j = k := by
  induction first with
  | stop free =>
      cases second with
      | stop _ => rfl
      | pass allowed taken _ => exact absurd ⟨allowed, taken⟩ free
  | pass allowed taken _ ih =>
      cases second with
      | stop free => exact absurd ⟨allowed, taken⟩ free
      | pass _ _ rest => exact ih rest

end Search

theorem search_firstFree {bound : Nat} (free : ¬ (a.allows (a.firstFree bound i) = true ∧
    a.state (a.firstFree bound i) ∈ a.reserved)) : a.Search i (a.firstFree bound i) := by
  induction bound generalizing i with
  | zero => exact .stop free
  | succ bound ih =>
      by_cases taken : a.allows i = true ∧ a.state i ∈ a.reserved
      · rw [firstFree, if_pos taken] at free ⊢
        exact .pass taken.1 taken.2 (ih free)
      · rw [firstFree, if_neg taken]
        exact .stop taken

/-- The search always ends, and the number that ends it settles the answer. -/
theorem take_spec (a : Allocator) : ∃ i, (∀ j, a.Search a.next j ↔ j = i) ∧ a.take =
    (if a.allows i then .ok (a.state i) else .error .numbersExhausted,
      { a with next := i + 1 }) := by
  have search : a.Search a.next (a.firstFree a.reserved.size a.next) :=
    search_firstFree fun taken => a.firstFree_not_reserved taken.1 taken.2
  exact ⟨_, fun j => ⟨fun other => other.unique search, fun same => same ▸ search⟩, rfl⟩

/-- Without reserved states the next number is taken. -/
theorem take_of_reserved_empty (free : a.reserved = ∅) (allowed : a.allows a.next = true) :
    a.take = (.ok (a.state a.next), { a with next := a.next + 1 }) := by
  have here : a.firstFree a.reserved.size a.next = a.next := by
    rw [free]
    rfl
  rw [take, here, if_pos allowed]

/-! ### Free numbers -/

theorem mem_freeBelow : i ∈ a.freeBelow n ↔
    (a.next ≤ i ∧ i < n) ∧ a.allows i = true ∧ a.state i ∉ a.reserved := by
  rw [freeBelow, List.mem_filter, decide_eq_true_iff, List.mem_map]
  refine and_congr_left fun _ => ⟨?_, fun ⟨low, high⟩ => ?_⟩
  · rintro ⟨k, small, rfl⟩
    have small := List.mem_range.mp small
    omega
  · exact ⟨(i - a.next).toNat, List.mem_range.mpr (by omega), by omega⟩

theorem nodup_states_freeBelow : ((a.freeBelow n).map a.state).Nodup := by
  refine List.Nodup.map (fun _ _ => a.state_injective) (List.Nodup.filter _ ?_)
  refine List.Nodup.map (fun k l same => ?_) List.nodup_range
  have same : a.next + (k : Int) = a.next + l := same
  omega

theorem freeBelow_append (ab : a.Before b) (le : b.next ≤ n) :
    a.freeBelow n = a.freeBelow b.next ++ b.freeBelow n := by
  have numbers : (n - a.next).toNat = (b.next - a.next).toNat + (n - b.next).toNat := by
    have := ab.next_le
    omega
  have same : (fun i => decide (b.allows i = true ∧ b.state i ∉ b.reserved)) =
      fun i => decide (a.allows i = true ∧ a.state i ∉ a.reserved) := by
    funext i
    rw [ab.state_eq, ab.reserved_eq, allows, allows, ab.largest_eq]
  rw [freeBelow, freeBelow, freeBelow, numbers, List.range_add, List.map_append, List.filter_append,
    List.map_map, same]
  congr 2
  refine List.map_congr_left fun k _ => ?_
  have := ab.next_le
  simp only [Function.comp_apply]
  omega

theorem freeBelow_next (a : Allocator) : a.freeBelow (a.next + 1) =
    if a.allows a.next = true ∧ a.state a.next ∉ a.reserved then [a.next] else [] := by
  have one : (a.next + 1 - a.next).toNat = 1 := by omega
  rw [freeBelow, one]
  simp [List.filter_singleton]

/-- A draw uses up the numbers up to the one that ends the search, which is free if it is
    allowed. -/
theorem Search.freeBelow_succ (search : a.Search a.next i) :
    a.freeBelow (i + 1) = if a.allows i then [i] else [] := by
  have start : a.Before { a with next := i } := ⟨rfl, rfl, rfl, search.le⟩
  have skipped : a.freeBelow i = [] := by
    refine List.eq_nil_iff_forall_not_mem.mpr fun k member => ?_
    obtain ⟨⟨low, high⟩, _, free⟩ := mem_freeBelow.mp member
    exact free (search.passed low high).2
  rw [freeBelow_append start (Int.le_of_lt (Int.lt_succ i)), skipped, List.nil_append]
  refine (freeBelow_next { a with next := i }).trans (if_congr ?_ rfl rfl)
  exact ⟨And.left, fun allowed => ⟨allowed, fun taken => search.stopped ⟨allowed, taken⟩⟩⟩

/-! ### What an allocator serves -/

/-- States are handed out on the way from one allocator to a later one. They are those of free
    numbers, in order, and if everything that was asked for is answered they are those of all of
    them. Everything is answered as long as the numbers are allowed, and no longer. -/
structure Serves (a : Allocator) (ps : List State) (answered : Prop) (b : Allocator) : Prop where
  before : a.Before b
  in_order : ps.Sublist ((a.freeBelow b.next).map a.state)
  complete : answered → ps = (a.freeBelow b.next).map a.state
  answered_iff : answered ↔ ∀ i, a.next ≤ i → i < b.next → a.allows i = true

namespace Serves

variable {answered answered' : Prop}

theorem refl (a : Allocator) : a.Serves [] True a where
  before := .refl a
  in_order := List.nil_sublist _
  complete _ := by simp [freeBelow]
  answered_iff := by
    refine iff_of_true trivial fun i low high => ?_
    omega

theorem append (first : a.Serves ps answered b) (second : b.Serves qs answered' c) :
    a.Serves (ps ++ qs) (answered ∧ answered') c := by
  have numbers : (a.freeBelow c.next).map a.state =
      (a.freeBelow b.next).map a.state ++ (b.freeBelow c.next).map b.state := by
    rw [freeBelow_append first.before second.before.next_le, List.map_append]
    congr 2
    funext i
    exact (first.before.state_eq i).symm
  have allows_eq (i : Int) : b.allows i = a.allows i := by
    rw [allows, allows, first.before.largest_eq]
  refine ⟨first.before.trans second.before, ?_, fun both => ?_, ?_⟩
  · rw [numbers]
    exact first.in_order.append second.in_order
  · rw [numbers, ← first.complete both.1, ← second.complete both.2]
  · rw [first.answered_iff, second.answered_iff]
    simp only [allows_eq]
    constructor
    · rintro ⟨early, late⟩ i low high
      rcases Int.lt_or_le i b.next with before | after
      · exact early i low before
      · exact late i after high
    · intro all
      refine ⟨fun i low high => all i low ?_, fun i low high => all i ?_ high⟩
      · exact Int.lt_of_lt_of_le high second.before.next_le
      · exact Int.le_trans first.before.next_le low

/-- What has been handed out is lost if something later fails. -/
theorem lose (serves : a.Serves ps answered b) (failed : ¬ answered) : a.Serves [] False b where
  before := serves.before
  in_order := List.nil_sublist _
  complete impossible := impossible.elim
  answered_iff := by
    rw [← serves.answered_iff]
    exact iff_of_false id failed

theorem of_iff (serves : a.Serves ps answered b) (same : answered ↔ answered') :
    a.Serves ps answered' b :=
  propext same ▸ serves

end Serves

theorem take_serves (a : Allocator) :
    a.Serves a.take.1.toOption.toList (a.take.1.isOk = true) a.take.2 := by
  obtain ⟨i, search, drawn⟩ := a.take_spec
  have search : a.Search a.next i := (search i).mpr rfl
  have later : a.Before a.take.2 := a.before_take
  have free : a.freeBelow (i + 1) = if a.allows i then [i] else [] := search.freeBelow_succ
  rw [drawn] at later ⊢
  by_cases allowed : a.allows i = true
  · rw [if_pos allowed] at free ⊢
    refine ⟨later, ?_, fun _ => ?_, iff_of_true rfl fun k low high => ?_⟩
    · rw [free]
      exact List.Sublist.refl _
    · rw [free]
      rfl
    · rcases Int.lt_or_eq_of_le (Int.lt_add_one_iff.mp high) with before | rfl
      · exact (search.passed low before).1
      · exact allowed
  · rw [if_neg allowed] at free ⊢
    refine ⟨later, List.nil_sublist _, fun _ => ?_, iff_of_false Bool.false_ne_true fun all => ?_⟩
    · rw [free]
      rfl
    · exact allowed (all i search.le (Int.lt_succ i))

/-- Something has failed, so nothing comes of what has been handed out. -/
theorem Serves.failed {answered : Prop} {e : Error} (serves : a.Serves ps answered b)
    (failed : ¬ answered) : a.Serves ((.error e : Except Error (List State)).toOption.getD [])
      ((.error e : Except Error (List State)).isOk = true) b :=
  (serves.lose failed).of_iff (iff_of_false id Bool.false_ne_true)

theorem drawMany_serves (a : Allocator) (k : Nat) :
    a.Serves (((drawMany k).runFrom a).1.toOption.getD []) (((drawMany k).runFrom a).1.isOk = true)
      ((drawMany k).runFrom a).2 := by
  induction k generalizing a with
  | zero => exact (Serves.refl a).of_iff (iff_of_true trivial rfl)
  | succ k ih =>
      have first := a.take_serves
      rw [drawMany, runFrom_bind, runFrom_draw]
      cases taken : a.take with
      | mk drawn b =>
          rw [taken] at first
          cases drawn with
          | error e => exact first.failed Bool.false_ne_true
          | ok p =>
              have both := first.append (ih b)
              dsimp only
              rw [runFrom_bind]
              cases run : (drawMany k).runFrom b with
              | mk result c =>
                  rw [run] at both
                  cases result with
                  | error e => exact both.failed fun fine => Bool.false_ne_true fine.2
                  | ok qs => exact both.of_iff (iff_of_true ⟨rfl, rfl⟩ rfl)

/-! ### Requests -/

theorem draw_eq_drawMany (r : Request) : r.draw = drawMany r.size := by
  cases r <;> simp [Request.draw, Request.size, drawMany, drawPair]

theorem runFrom_single (a : Allocator) :
    Request.single.draw.runFrom a = (a.take.1.map fun p => [p], a.take.2) := by
  rw [Request.draw, runFrom_bind, runFrom_draw]
  cases a.take with
  | mk drawn b => cases drawn <;> rfl

theorem isAnswer_draw (r : Request) (a : Allocator) : r.IsAnswer (r.draw.runFrom a).1 := by
  have spec : r.draw.Ensures a (fun ps _ => ps.length = r.size) fun _ => False := by
    rw [draw_eq_drawMany]
    exact (Ensures.drawMany r.size).weaken (fun _ _ _ drawn => drawn.1) fun _ => id
  rcases spec.ok_or_exhausted with ⟨ps, b, run, length⟩ | ⟨_, b, run⟩
  · rw [run]
    exact .inl ⟨ps, rfl, length⟩
  · rw [run]
    exact .inr rfl

theorem answerAll_serves (a : Allocator) (requests : List Request) :
    a.Serves (handedOut (a.answerAll requests).1)
      (∀ answer ∈ (a.answerAll requests).1, answer.isOk = true) (a.answerAll requests).2 := by
  induction requests generalizing a with
  | nil => exact (Serves.refl a).of_iff (iff_of_true trivial (by simp [answerAll]))
  | cons r requests ih =>
      have first := a.drawMany_serves r.size
      rw [← draw_eq_drawMany] at first
      rw [answerAll, handedOut, List.flatMap_cons]
      refine (first.append (ih _)).of_iff ?_
      simp

theorem answerAll_answers (a : Allocator) (requests : List Request) :
    List.Forall₂ Request.IsAnswer requests (a.answerAll requests).1 := by
  induction requests generalizing a with
  | nil => exact .nil
  | cons r requests ih => exact .cons (isAnswer_draw r a) (ih _)

/-- An allocator never repeats a name and never hands out a reserved one. Each search ends at one
    number, be there ever so many reserved names in a row, and hands out its state unless the
    number is not allowed. Over any requests the names are those of free numbers in order; they are
    those of all the free numbers passed, none left out, if every request is answered, and that is
    so as long as the numbers are allowed. So the bridge states of an automaton, for which its own
    states are reserved, are none of these. -/
theorem answerAll_fresh :
    (∀ a : Allocator, ∃ i, (∀ j, a.Search a.next j ↔ j = i) ∧ a.take =
      (if a.allows i then .ok (a.state i) else .error .numbersExhausted,
        { a with next := i + 1 })) ∧
    (∀ (a b : Allocator) (requests : List Request) (answers : List (Except Error (List State))),
      a.answerAll requests = (answers, b) →
        List.Forall₂ Request.IsAnswer requests answers ∧
        (handedOut answers).Nodup ∧ (∀ p ∈ handedOut answers, p ∉ a.reserved) ∧
        (handedOut answers).Sublist ((a.freeBelow b.next).map a.state) ∧
        ((∀ answer ∈ answers, answer.isOk = true) →
          handedOut answers = (a.freeBelow b.next).map a.state) ∧
        ((∀ answer ∈ answers, answer.isOk = true) ↔
          ∀ i, a.next ≤ i → i < b.next → a.allows i = true) ∧
        (a.largest = none → ∀ answer ∈ answers, answer.isOk = true)) ∧
    (∀ n : NFA, ∃ g c, (GNFA.ofNFA n).runFrom (GNFA.bridgeAllocator n) = (.ok g, c) ∧
      g.start ∉ n.states ∧ g.accept ∉ n.states) ∧
    ∀ d : DFA, ∃ n g c, d.toNFA = .ok n ∧
      (GNFA.ofNFA n).runFrom (GNFA.bridgeAllocator n) = (.ok g, c) ∧
      g.start ∉ d.states ∧ g.accept ∉ d.states := by
  refine ⟨take_spec, fun a b requests answers history => ?_, fun n => ?_, fun d => ?_⟩
  · have answered := a.answerAll_answers requests
    have serves := a.answerAll_serves requests
    rw [history] at answered serves
    refine ⟨answered, serves.in_order.nodup nodup_states_freeBelow, fun p member => ?_,
      serves.in_order, serves.complete, serves.answered_iff, fun endless => ?_⟩
    · obtain ⟨i, free, rfl⟩ := List.mem_map.mp (serves.in_order.subset member)
      exact (mem_freeBelow.mp free).2.2
    · refine serves.answered_iff.mpr fun i _ _ => ?_
      rw [allows, endless, Option.all_none]
  · obtain ⟨g, c, run, generalizes⟩ := GNFA.ofNFA_generalizes n
    exact ⟨g, c, run, generalizes.start_fresh, generalizes.accept_fresh⟩
  · obtain ⟨n, built, diagram⟩ := d.toNFA_ok
    obtain ⟨g, c, run, generalizes⟩ := GNFA.ofNFA_generalizes n
    have states : n.states = d.states := by
      rw [diagram]
      rfl
    exact ⟨n, g, c, built, run, states ▸ generalizes.start_fresh, states ▸ generalizes.accept_fresh⟩

/-- Reserved names before, between and after the ones that are handed out. -/
theorem answerAll_fresh_gaps :
    let a : Allocator := {
      stem := "g-"
      next := -1
      reserved := .ofList [⟨"g--1"⟩, ⟨"g-1"⟩, ⟨"g-2"⟩, ⟨"g-5"⟩] }
    handedOut (a.answerAll [.single, .pair]).1 = [⟨"g-0"⟩, ⟨"g-3"⟩, ⟨"g-4"⟩] := by
  intro a
  let history := a.answerAll [.single, .pair]
  obtain ⟨_, _, _, _, complete, _, endless⟩ :=
    answerAll_fresh.2.1 a history.2 [.single, .pair] history.1 rfl
  refine (complete (endless rfl)).trans ?_
  decide +kernel

/-- The second one of two requests comes to a number that is too large. -/
theorem answerAll_runs_out :
    ∃ p, ((startingAt "q" Text.largestNumber ∅).answerAll [.single, .single]).1 =
      [.ok [p], .error .numbersExhausted] := by
  let a := startingAt "q" Text.largestNumber ∅
  let b : Allocator := { a with next := a.next + 1 }
  have allowed : a.allows a.next = true := by
    refine (allows_iff rfl).mpr ⟨?_, Int.le_refl _⟩
    dsimp only [a, startingAt]
    omega
  have first : a.take = (.ok (a.state a.next), b) := take_of_reserved_empty rfl allowed
  have second : b.take.1 = .error .numbersExhausted := take_of_largest_lt rfl (Int.lt_succ _)
  refine ⟨a.state a.next, ?_⟩
  change (a.answerAll [.single, .single]).1 = _
  simp only [answerAll, runFrom_single, first, second, Except.map]

end Automata.Allocator
