import Automata.Proofs.NFA.Draws
import Automata.Proofs.NFA.Words

/-! # Joining automata

Concatenation and union first ask for one alphabet and then for states that are not shared, and
nothing else makes them fail but a drawn state that is in use or the end of the allocator. What they
build accepts the words that fall into parts, one for each operand, or the words of any operand. A
power is the concatenation of copies, which never share a state.
-/

namespace Automata

/-- A result is an error of a kind. -/
def FailsWith {α : Type} (r : Except Error α) (k : Error.Kind) : Prop :=
  ∃ e, r = .error e ∧ e.kind = k

namespace FailsWith

variable {α : Type} {r : Except Error α} {j k : Error.Kind}

theorem kind_unique (first : FailsWith r j) (second : FailsWith r k) : j = k := by
  obtain ⟨e, failure, rfl⟩ := first
  obtain ⟨e', failure', rfl⟩ := second
  rw [Except.error.inj (failure.symm.trans failure')]

theorem not_ok {x : α} : ¬ FailsWith (.ok x : Except Error α) k := by
  rintro ⟨e, failure, _⟩
  cases failure

theorem error_iff {e : Error} : FailsWith (.error e : Except Error α) k ↔ e.kind = k := by
  constructor
  · rintro ⟨_, failure, kind⟩
    cases failure
    exact kind
  · exact fun kind => ⟨e, rfl, kind⟩

end FailsWith

namespace NFA

open Building

variable {α : Type} {r : Except Error α} {clash result : Prop} {l : List NFA} {n first : NFA}
  {others : List NFA} {a c : Allocator} {p : State}

/-! ### Operands that do not fit together -/

/-- Two automata of a list are over different alphabets. -/
def AlphabetsDiffer (l : List NFA) : Prop := ∃ m ∈ l, ∃ n ∈ l, m.alphabet ≠ n.alphabet

/-- Two automata at different positions of a list have a state in common. -/
def ShareState (l : List NFA) : Prop :=
  ∃ (i j : Nat) (hi : i < l.length) (hj : j < l.length),
    i ≠ j ∧ ∃ p ∈ l[i].states, p ∈ l[j].states

theorem not_shareState_iff : ¬ ShareState l ↔ l.Pairwise Apart := by
  rw [List.pairwise_iff_getElem]
  constructor
  · intro alone i j hi hj before p here there
    exact alone ⟨i, j, hi, hj, Nat.ne_of_lt before, p, here, there⟩
  · rintro apart ⟨i, j, hi, hj, different, p, here, there⟩
    rcases Nat.lt_or_gt_of_ne different with before | after
    · exact apart i j hi hj before p here there
    · exact apart j i hj hi after p there here

theorem alphabet_eq_of_not_differ (agree : ¬ AlphabetsDiffer (first :: others)) :
    ∀ n ∈ first :: others, n.alphabet = first.alphabet := by
  intro n listed
  by_contra different
  exact agree ⟨n, listed, first, List.mem_cons_self, different⟩

/-- A result that depends on automata is an error about their alphabets exactly if two of these
    differ, and otherwise an error about states exactly if two automata share one or there is some
    other clash. -/
structure Guarded (l : List NFA) (r : Except Error α) (clash result : Prop) : Prop where
  mismatch : FailsWith r .mismatch ↔ AlphabetsDiffer l
  state : ¬ AlphabetsDiffer l → (FailsWith r .state ↔ ShareState l ∨ clash)
  /-- Where nothing is in the way there is a result. -/
  result : ¬ AlphabetsDiffer l → ¬ ShareState l → ¬ clash → result

theorem check_error_of_differ (differ : AlphabetsDiffer (first :: others)) :
    FailsWith (checkCompatible (first :: others)) .mismatch := by
  cases alphabets : StateDiagram.checkAlphabets ((first :: others).map toStateDiagram) with
  | ok _ =>
      obtain ⟨m, hm, n, hn, different⟩ := differ
      have same := alphabets_of_check alphabets
      have left := same _ (List.mem_map_of_mem (f := toStateDiagram) hm)
      have right := same _ (List.mem_map_of_mem (f := toStateDiagram) hn)
      exact absurd (left.trans right.symm) different
  | error e =>
      refine ⟨e, ?_, kind_of_alphabets_error alphabets⟩
      rw [checkCompatible, StateDiagram.checkCompatible, alphabets]
      rfl

theorem check_error_of_share (agree : ¬ AlphabetsDiffer (first :: others))
    (share : ShareState (first :: others)) :
    FailsWith (checkCompatible (first :: others)) .state := by
  have alphabets : StateDiagram.checkAlphabets ((first :: others).map toStateDiagram) = .ok () :=
    checkAlphabets_ok (List.forall_mem_map.mpr (alphabet_eq_of_not_differ agree))
  cases checked : checkCompatible (first :: others) with
  | ok _ =>
      exact absurd share (not_shareState_iff.mpr (compatible_of_check checked).2)
  | error e =>
      refine ⟨e, rfl, ?_⟩
      rw [checkCompatible, StateDiagram.checkCompatible, alphabets] at checked
      exact kind_of_disjoint_error checked

/-- The check on operands fails for their alphabets, for their states, or not at all. -/
theorem guarded_check : Guarded (first :: others) (checkCompatible (first :: others)) False
    (checkCompatible (first :: others) = .ok ()) := by
  have fits (agree : ¬ AlphabetsDiffer (first :: others)) (alone : ¬ ShareState (first :: others)) :
      checkCompatible (first :: others) = .ok () :=
    checkCompatible_ok (alphabet_eq_of_not_differ agree) (not_shareState_iff.mp alone)
  refine ⟨⟨fun failure => ?_, check_error_of_differ⟩, fun agree => ⟨fun failure => ?_, ?_⟩,
    fun agree alone _ => fits agree alone⟩
  · by_contra agree
    by_cases share : ShareState (first :: others)
    · -- an error has one kind, so a shared state is never reported as a mismatch
      cases failure.kind_unique (check_error_of_share agree share)
    · rw [fits agree share] at failure
      exact FailsWith.not_ok failure
  · by_contra alone
    rw [fits agree fun share => alone (.inl share)] at failure
    exact FailsWith.not_ok failure
  · rintro (share | impossible)
    · exact check_error_of_share agree share
    · exact impossible.elim

theorem check_eq_ok_iff : checkCompatible (first :: others) = .ok () ↔
    ¬ AlphabetsDiffer (first :: others) ∧ ¬ ShareState (first :: others) := by
  constructor
  · intro checked
    have agree : ¬ AlphabetsDiffer (first :: others) := fun differ => by
      have failure := guarded_check.mismatch.mpr differ
      rw [checked] at failure
      exact FailsWith.not_ok failure
    exact ⟨agree, not_shareState_iff.mpr (compatible_of_check checked).2⟩
  · intro ⟨agree, alone⟩
    exact guarded_check.result agree alone id

/-- A construction is guarded that begins with the check on its operands. -/
theorem Guarded.of_check
    (failed : ∀ e, checkCompatible (first :: others) = .error e → r = .error e)
    (clashes : checkCompatible (first :: others) = .ok () → clash → FailsWith r .state)
    (fine : checkCompatible (first :: others) = .ok () → ¬ clash →
      ¬ FailsWith r .mismatch ∧ ¬ FailsWith r .state ∧ result) :
    Guarded (first :: others) r clash result := by
  have inherits {k : Error.Kind} (failure : FailsWith (checkCompatible (first :: others)) k) :
      FailsWith r k := by
    obtain ⟨e, failure, kind⟩ := failure
    exact ⟨e, failed e failure, kind⟩
  refine ⟨⟨fun failure => ?_, fun differ => inherits (guarded_check.mismatch.mpr differ)⟩,
    fun agree => ⟨fun failure => ?_, fun reason => ?_⟩, fun agree alone free => ?_⟩
  · by_contra agree
    by_cases share : ShareState (first :: others)
    · cases failure.kind_unique (inherits (check_error_of_share agree share))
    · have checked := check_eq_ok_iff.mpr ⟨agree, share⟩
      by_cases clash : clash
      · cases failure.kind_unique (clashes checked clash)
      · exact (fine checked clash).1 failure
  · by_contra neither
    rw [not_or] at neither
    exact (fine (check_eq_ok_iff.mpr ⟨agree, neither.1⟩) neither.2).2.1 failure
  · by_cases share : ShareState (first :: others)
    · exact inherits (check_error_of_share agree share)
    · exact clashes (check_eq_ok_iff.mpr ⟨agree, share⟩) (reason.resolve_left share)
  · exact (fine (check_eq_ok_iff.mpr ⟨agree, alone⟩) free).2.2

/-! ### Concatenation and union -/

theorem concatenate_of_check_error {e : Error}
    (incompatible : checkCompatible (first :: others) = .error e) :
    concatenate (first :: others) = .error e := by
  rw [concatenate, incompatible]
  rfl

theorem guarded_concatenate : Guarded (first :: others) (concatenate (first :: others)) False
    (∃ m, concatenate (first :: others) = .ok m ∧ m.alphabet = first.alphabet ∧
      m.Decides fun word => ∃ parts : List String, word = String.join parts ∧
        List.Forall₂ (fun n part => n.accepts part = .ok true) (first :: others) parts) := by
  refine .of_check (fun e => concatenate_of_check_error) (fun _ => False.elim) fun checked _ => ?_
  obtain ⟨alphabets, apart⟩ := compatible_of_check checked
  obtain ⟨m, built, alphabet, _, language⟩ := concatenate_spec alphabets apart
  rw [built]
  refine ⟨FailsWith.not_ok, FailsWith.not_ok, m, rfl, alphabet, decides_of_language fun word => ?_⟩
  rw [language, mem_prod_iff_parts]

theorem guarded_union (taken : a.take = (.ok p, c)) :
    Guarded (first :: others) ((union (first :: others)).runFrom a).1
      (∃ n ∈ first :: others, p ∈ n.states)
      (∃ m, (union (first :: others)).runFrom a = (.ok m, c) ∧ m.alphabet = first.alphabet ∧
        m.Decides fun word => ∃ n ∈ first :: others, n.accepts word = .ok true) := by
  refine .of_check (fun e => union_of_check_error) (fun checked clash => ?_) fun checked fresh => ?_
  · exact (union_draws a checked).refused [p] c rfl (.cons taken .nil) ⟨p, by simp, clash⟩
  · have fresh : ∀ n ∈ first :: others, p ∉ n.states := fun n listed inside =>
      fresh ⟨n, listed, inside⟩
    obtain ⟨m, run, diagram⟩ := union_run taken checked fresh
    have language : m.language = ((first :: others).map NFA.language).sum :=
      language_of_unionDiagram (compatible_of_check checked).2 fresh diagram
    rw [run]
    refine ⟨FailsWith.not_ok, FailsWith.not_ok, m, rfl, by rw [diagram, unionDiagram],
      decides_of_language fun word => ?_⟩
    simp only [language, Regex.mem_sum_map, accepts_iff]

/-- Without a next state operands that fit together are not united. -/
theorem guarded_union_exhausted {e : Error} (taken : a.take = (.error e, c)) :
    Guarded (first :: others) ((union (first :: others)).runFrom a).1 False
      (((union (first :: others)).runFrom a).1 = .error .numbersExhausted) := by
  obtain ⟨rfl, _⟩ := Allocator.take_error taken
  refine .of_check (fun e => union_of_check_error) (fun _ => False.elim) fun checked _ => ?_
  rw [union_of_take_error taken checked]
  exact ⟨mt FailsWith.error_iff.mp (by decide), mt FailsWith.error_iff.mp (by decide), rfl⟩

/-- Concatenation and union fail for operands over different alphabets, else for operands that share
    a state, and a union also if the next state is in use. Otherwise a concatenation accepts what
    falls into parts that the operands accept in turn, and a union what some operand accepts. Only
    an allocator with a largest number may have no next state; then a union that would be built runs
    out of numbers. -/
theorem concatenate_union_decide (first : NFA) (others : List NFA) (a : Allocator) :
    Guarded (first :: others) (concatenate (first :: others)) False
      (∃ m, concatenate (first :: others) = .ok m ∧ m.alphabet = first.alphabet ∧
        m.Decides fun word => ∃ parts : List String, word = String.join parts ∧
          List.Forall₂ (fun n part => n.accepts part = .ok true) (first :: others) parts) ∧
    (∀ p c, a.take = (.ok p, c) →
      Guarded (first :: others) ((union (first :: others)).runFrom a).1
        (∃ n ∈ first :: others, p ∈ n.states)
        (∃ m, (union (first :: others)).runFrom a = (.ok m, c) ∧ m.alphabet = first.alphabet ∧
          m.Decides fun word => ∃ n ∈ first :: others, n.accepts word = .ok true)) ∧
    (∀ e c, a.take = (.error e, c) →
      Guarded (first :: others) ((union (first :: others)).runFrom a).1 False
        (((union (first :: others)).runFrom a).1 = .error .numbersExhausted)) ∧
    (a.largest = none → ∃ p c, a.take = (.ok p, c)) := by
  refine ⟨guarded_concatenate, fun p c => guarded_union, fun e c => guarded_union_exhausted,
    fun endless => ?_⟩
  cases taken : a.take with
  | mk r c =>
      cases r with
      | ok p => exact ⟨p, c, rfl⟩
      | error e => exact absurd endless (Allocator.take_error taken).2

/-- A letter and any number of others, from an allocator whose first state is in use. -/
theorem concatenate_union_decide_loop :
    let A : Alphabet := ⟨.ofList ['a', 'b'], by decide, by decide⟩
    let m : NFA := ⟨⟨.ofList [⟨"x"⟩, ⟨"y"⟩], A, .ofList [⟨⟨"x"⟩, "a", ⟨"y"⟩⟩], ⟨"x"⟩,
      .ofList [⟨"y"⟩]⟩,
      ⟨by decide +kernel, by decide +kernel, by decide +kernel, by decide +kernel⟩,
      by decide +kernel⟩
    let n : NFA := ⟨⟨.ofList [⟨"q0"⟩], A, .ofList [⟨⟨"q0"⟩, "b", ⟨"q0"⟩⟩], ⟨"q0"⟩,
      .ofList [⟨"q0"⟩]⟩,
      ⟨by decide +kernel, by decide +kernel, by decide +kernel, by decide +kernel⟩,
      by decide +kernel⟩
    ¬ AlphabetsDiffer [m, n] ∧ ¬ ShareState [m, n] ∧
      (∃ k, concatenate [m, n] = .ok k ∧ k.accepts "abb" = .ok true) ∧
      FailsWith ((union [m, n]).runFrom {}).1 .state ∧
      ∃ k, (union [m, n]).runFrom { next := 1 } = (.ok k, { next := 2 }) ∧
        k.accepts "bb" = .ok true ∧ k.accepts "abb" ≠ .ok true := by
  intro A m n
  obtain ⟨agree, alone⟩ : ¬ AlphabetsDiffer [m, n] ∧ ¬ ShareState [m, n] :=
    check_eq_ok_iff.mp (by decide +kernel)
  obtain ⟨concatenated, united, _, _⟩ := concatenate_union_decide m [n] {}
  obtain ⟨_, later, _, _⟩ := concatenate_union_decide m [n] { next := 1 }
  have first : (({} : Allocator).take) = (.ok ⟨"q0"⟩, { next := 1 }) :=
    Prod.ext (by decide +kernel) rfl
  have second : (({ next := 1 } : Allocator).take) = (.ok ⟨"q1"⟩, { next := 2 }) :=
    Prod.ext (by decide +kernel) rfl
  have fresh : ¬ ∃ k ∈ [m, n], (⟨"q1"⟩ : State) ∈ k.states := by decide +kernel
  obtain ⟨k, built, _, decides⟩ := concatenated.result agree alone id
  obtain ⟨k', run, _, decides'⟩ := (later _ _ second).result agree alone fresh
  refine ⟨agree, alone, ⟨k, built, ?_⟩, ?_, k', run, ?_, fun accepted => ?_⟩
  · exact (decides.accepts_iff "abb").mpr
      ⟨["a", "bb"], rfl, .cons (by decide +kernel) (.cons (by decide +kernel) .nil)⟩
  · exact ((united _ _ first).state agree).mpr (.inr ⟨n, by simp, by decide +kernel⟩)
  · exact (decides'.accepts_iff "bb").mpr ⟨n, by simp, by decide +kernel⟩
  · have nobody : ¬ ∃ k ∈ [m, n], k.accepts "abb" = .ok true := by decide +kernel
    exact nobody ((decides'.accepts_iff "abb").mp accepted)

/-- Operands that fit together are not united by an allocator that is past its largest number. -/
theorem union_runs_out :
    let A : Alphabet := ⟨.ofList ['a'], by decide, by decide⟩
    let n (p : State) : NFA := ⟨⟨.ofList [p], A, .ofList [⟨p, "a", p⟩], p, .ofList [p]⟩,
      ⟨by simp, by simp, by simp, by simp⟩, by simpa using .inr (by decide)⟩
    let l : List NFA := [n ⟨"x"⟩, n ⟨"y"⟩]
    ¬ AlphabetsDiffer l ∧ ¬ ShareState l ∧ (∃ m ∈ l, m.accepts "a" = .ok true) ∧
      ((union l).runFrom (.startingAt "q" (Text.largestNumber + 1) ∅)).1 =
        .error .numbersExhausted := by
  intro A n l
  have checked : checkCompatible l = .ok () := by decide +kernel
  obtain ⟨agree, alone⟩ := check_eq_ok_iff.mp checked
  refine ⟨agree, alone, ⟨n ⟨"x"⟩, by simp [l], by decide +kernel⟩, ?_⟩
  let a : Allocator := .startingAt "q" (Text.largestNumber + 1) ∅
  have exhausted : a.take = (.error .numbersExhausted, a.take.2) :=
    Prod.ext (Allocator.take_of_largest_lt rfl (Int.lt_succ _)) rfl
  exact (guarded_union_exhausted exhausted).result agree alone id

/-! ### Powers -/

/-- A power from an allocator with enough states left is built of as many states as all the copies
    have, and it accepts what falls into as many parts. -/
theorem power_ok {k : Int} (positive : 1 ≤ k) (enough : a.Supplies (k.toNat * n.states.size)) :
    ∃ m, ((n.power k).runFrom a).1 = .ok m ∧ m.alphabet = n.alphabet ∧
      m.states.size = k.toNat * n.states.size ∧
      m.Decides fun word => ∃ parts : List String, word = String.join parts ∧
        parts.length = k.toNat ∧ ∀ part ∈ parts, n.accepts part = .ok true := by
  obtain ⟨ps, c, length, handed⟩ := enough
  obtain ⟨m, result⟩ := (n.power_draws positive a).ok ps c length handed id
  have run : (n.power k).runFrom a = (.ok m, ((n.power k).runFrom a).2) := Prod.ext result rfl
  obtain ⟨alphabet, language⟩ :=
    ((power_ensures (E := fun _ => False) positive).of_ok run).2
  obtain ⟨qs, length', handed', consists⟩ := (power_takes positive).of_ok run
  refine ⟨m, result, alphabet, ?_, decides_of_language fun word => ?_⟩
  · exact (consists.size_eq (nodup_of_handsOut handed')).trans length'
  · rw [language, mem_pow_iff_parts]

/-- A power with a positive exponent is built exactly if the allocator has a state left for each
    state of each copy, whatever the states are called. It has as many states as all the copies
    together, and it accepts what falls into as many parts that the operand accepts. Other exponents
    are refused, and one with no largest number always has enough states left. -/
theorem power_decides (n : NFA) (a : Allocator) (k : Int) :
    (1 ≤ k → a.Supplies (k.toNat * n.states.size) →
      ∃ m, ((n.power k).runFrom a).1 = .ok m ∧ m.alphabet = n.alphabet ∧
        m.states.size = k.toNat * n.states.size ∧
        m.Decides fun word => ∃ parts : List String, word = String.join parts ∧
          parts.length = k.toNat ∧ ∀ part ∈ parts, n.accepts part = .ok true) ∧
    (1 ≤ k → ¬ a.Supplies (k.toNat * n.states.size) →
      ((n.power k).runFrom a).1 = .error .numbersExhausted) ∧
    (k < 1 → (n.power k).runFrom a = (.error (.exponentTooSmall k), a) ∧
      FailsWith ((n.power k).runFrom a).1 .automaton) ∧
    (a.largest = none → ∀ j, a.Supplies j) := by
  refine ⟨power_ok, fun positive => (n.power_draws positive a).exhausted, fun small => ?_,
    supplies_of_endless⟩
  have refused : (n.power k).runFrom a = (.error (.exponentTooSmall k), a) := by
    rw [power, if_pos small]
    rfl
  exact ⟨refused, _, congrArg Prod.fst refused, rfl⟩

/-- The square of an automaton whose own states come first among those that the allocator names, one
    of them reserved. -/
theorem power_decides_square :
    let n : NFA := {
      states := .ofList [⟨"q0"⟩, ⟨"q1"⟩]
      alphabet := ⟨.ofList ['a', 'b'], by decide, by decide⟩
      edges := .ofList [⟨⟨"q0"⟩, "a", ⟨"q1"⟩⟩, ⟨⟨"q1"⟩, "b", ⟨"q0"⟩⟩]
      start := ⟨"q0"⟩
      accepting := .ofList [⟨"q1"⟩]
      closed := ⟨by decide +kernel, by decide +kernel, by decide +kernel, by decide +kernel⟩
      label_mem := by decide +kernel }
    let a : Allocator := { reserved := .ofList [⟨"q1"⟩] }
    a.largest = none ∧ FailsWith ((n.power 0).runFrom a).1 .automaton ∧
      ∃ m, ((n.power 2).runFrom a).1 = .ok m ∧ m.states.size = 4 ∧
        m.accepts "aaba" = .ok true := by
  intro n a
  obtain ⟨_, _, refused, endless⟩ := power_decides n a 0
  obtain ⟨built, _⟩ := power_decides n a 2
  obtain ⟨m, result, _, size, decides⟩ := built (by decide) (endless rfl _)
  refine ⟨rfl, (refused (by decide)).2, m, result, size.trans (by decide +kernel), ?_⟩
  exact (decides.accepts_iff "aaba").mpr ⟨["a", "aba"], rfl, rfl, by decide +kernel⟩

/-- The copy of two states needs two names, and an allocator at its largest number has one. -/
theorem power_runs_out :
    let n : NFA := {
      states := .ofList [⟨"x"⟩, ⟨"y"⟩]
      alphabet := ⟨.ofList ['a'], by decide, by decide⟩
      edges := .ofList [⟨⟨"x"⟩, "a", ⟨"y"⟩⟩]
      start := ⟨"x"⟩
      accepting := .ofList [⟨"y"⟩]
      closed := ⟨by decide +kernel, by decide +kernel, by decide +kernel, by decide +kernel⟩
      label_mem := by decide +kernel }
    ((n.power 1).runFrom (.startingAt "q" Text.largestNumber ∅)).1 = .error .numbersExhausted := by
  intro n
  refine (n.power_draws (by decide) _).exhausted ?_
  have size : (1 : Int).toNat * n.states.size = 2 := by decide +kernel
  rw [size]
  refine Allocator.not_supplies_of_largest rfl (Int.le_of_lt (Int.lt_succ _)) ?_
  dsimp only [Allocator.startingAt]
  omega

end NFA

end Automata
