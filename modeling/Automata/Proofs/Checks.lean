import Automata.Proofs.DFA.Minimize
import Automata.Proofs.DFA.Product
import Automata.Proofs.DFA.Rename
import Automata.Proofs.DFA.Subsets
import Automata.Proofs.GNFA.OfNFA
import Automata.Proofs.NFA.Draws
import Automata.Proofs.NFA.Simplify

/-! # No construction trips over its own checks

What is built from automata is closed, labelled over its alphabet and total where it must be. So a
construction fails for one of three reasons only: its operands do not fit together, a drawn state is
one of theirs, or the allocator has no more numbers.
-/

namespace Automata

namespace GNFA

variable {n : NFA} {a : Allocator}

/-- A generalized automaton takes two bridge states, and it exists unless they are in use. -/
theorem ofNFA_draws (n : NFA) (a : Allocator) :
    (ofNFA n).Draws a 2 fun ps => ∃ p ∈ ps, p ∈ n.states := by
  unfold ofNFA
  refine (n.withSingleAccept_draws a).bind_ok fun k c run => ?_
  have bridge := NFA.withSingleAccept_ensures (n := n) (a := a) (E := fun _ => True)
    fun _ _ _ _ _ => trivial
  obtain ⟨start, accept, different, freshStart, freshAccept, bridged⟩ := (bridge.of_ok run).2
  obtain ⟨g, built, _⟩ := ofDiagram_bridged different freshStart freshAccept bridged
  exact ⟨g, by rw [built]; rfl⟩

theorem ofNFA_bridgeAllocator (n : NFA) :
    ∃ g, ((ofNFA n).runFrom (bridgeAllocator n)).1 = .ok g := by
  obtain ⟨g, c, run, _⟩ := ofNFA_generalizes n
  exact ⟨g, congrArg Prod.fst run⟩

end GNFA

/-- Constructions on automata pass all checks. Clones, simplified, determinized and minimized
    automata, powers and products exist, and so do stars, unions and bridges unless a state that is
    drawn for them is in use. What draws states runs out of numbers exactly if the allocator has
    fewer left; one without a largest number always has enough. -/
theorem constructions_pass_checks :
    (∀ (n : NFA) (a : Allocator),
      n.clone.Draws a n.states.size (fun _ => False) ∧
      (∃ m, n.simplify = .ok m) ∧ (∃ d, n.determinize = .ok d) ∧
      (∃ g, ((GNFA.ofNFA n).runFrom (GNFA.bridgeAllocator n)).1 = .ok g) ∧
      (∀ i, 1 ≤ i → (n.power i).Draws a (i.toNat * n.states.size) fun _ => False) ∧
      n.star.Draws a 1 (fun ps => ∃ p ∈ ps, p ∈ n.states) ∧
      n.withSingleAccept.Draws a 2 (fun ps => ∃ p ∈ ps, p ∈ n.states) ∧
      (GNFA.ofNFA n).Draws a 2 fun ps => ∃ p ∈ ps, p ∈ n.states) ∧
    (∀ (d : DFA) (a : Allocator),
      d.clone.Draws a d.states.size (fun _ => False) ∧ (∃ m, d.minimize = .ok m) ∧
      ∃ n, d.toNFA = .ok n ∧ ∃ g, ((GNFA.ofNFA n).runFrom (GNFA.bridgeAllocator n)).1 = .ok g) ∧
    (∀ (first : NFA) (others : List NFA) (a : Allocator),
      (NFA.checkCompatible (first :: others) = .ok () →
        (∃ n, NFA.concatenate (first :: others) = .ok n) ∧
        (NFA.union (first :: others)).Draws a 1 fun ps =>
          ∃ p ∈ ps, ∃ n ∈ first :: others, p ∈ n.states) ∧
      ∀ e, NFA.checkCompatible (first :: others) = .error e →
        ((NFA.union (first :: others)).runFrom a).1 = .error e ∧
          (e.kind = .mismatch ∨ e.kind = .state)) ∧
    (∀ d e : DFA, StateDiagram.checkCompatible [d.diagram, e.diagram] = .ok () →
      (∃ m, d.union e = .ok m) ∧ ∃ m, d.intersection e = .ok m) ∧
    ∀ (a : Allocator) (k : Nat), a.largest = none → a.Supplies k := by
  refine ⟨fun n a => ?_, fun d a => ?_,
    fun first others a => ⟨fun compatible => ?_, fun e failure => ?_⟩, fun d e checked => ?_,
    fun a k endless => Building.supplies_of_endless endless k⟩
  · obtain ⟨m, simplified, _⟩ := n.simplify_spec
    obtain ⟨d, determinized, _⟩ := n.determinize_ok
    exact ⟨n.clone_draws a, ⟨m, simplified⟩, ⟨d, determinized⟩, GNFA.ofNFA_bridgeAllocator n,
      fun i positive => n.power_draws positive a, n.star_draws a, n.withSingleAccept_draws a,
      GNFA.ofNFA_draws n a⟩
  · obtain ⟨m, minimized, _⟩ := d.minimize_accepts
    obtain ⟨n, built, _⟩ := d.toNFA_ok
    exact ⟨d.clone_draws a, ⟨m, minimized⟩, n, built, GNFA.ofNFA_bridgeAllocator n⟩
  · obtain ⟨alphabets, apart⟩ := NFA.compatible_of_check compatible
    obtain ⟨n, built, _⟩ := NFA.concatenate_spec alphabets apart
    exact ⟨⟨n, built⟩, NFA.union_draws a compatible⟩
  · exact ⟨NFA.union_of_check_error failure, NFA.kind_of_check_error failure⟩
  · obtain ⟨m, built, _⟩ := DFA.product_ok (· || ·) checked
    obtain ⟨k, built', _⟩ := DFA.product_ok (· && ·) checked
    exact ⟨⟨m, built⟩, k, built'⟩

/-- Automata with one state each: a union draws a name that is taken, and then one that is free. -/
theorem constructions_pass_checks_loops :
    let A : Alphabet := ⟨.ofList ['a'], by decide, by decide⟩
    let n (p : State) : NFA := ⟨⟨.ofList [p], A, .ofList [⟨p, "a", p⟩], p, .ofList [p]⟩,
      ⟨by simp, by simp, by simp, by simp⟩, by simpa using .inr (by decide)⟩
    let loop (p : State) : MoveDiagram :=
      ⟨.ofList [p], A, .ofList [((p, "a"), p)], p, .ofList [p]⟩
    let p : State := ⟨"p"⟩
    let q : State := ⟨"q0"⟩
    (∃ m, (((n p).power 2).runFrom {}).1 = .ok m) ∧
      (∃ m, NFA.concatenate [n p, n q] = .ok m) ∧
      (∃ e, ((NFA.union [n p, n q]).runFrom {}).1 = .error e ∧ e.kind = .state) ∧
      (∃ m, ((NFA.union [n p, n q]).runFrom { next := 1 }).1 = .ok m) ∧
      (∃ e, ((NFA.union [n p, n p]).runFrom {}).1 = .error e ∧ e.kind = .state) ∧
      ∃ d e m, DFA.ofDiagram (loop p) = .ok d ∧ DFA.ofDiagram (loop q) = .ok e ∧
        d.union e = .ok m := by
  intro A n loop p q
  let d : DFA := ⟨loop p, ⟨by decide +kernel, by decide +kernel, by decide +kernel,
    by decide +kernel⟩, by decide +kernel, by decide +kernel⟩
  let e : DFA := ⟨loop q, ⟨by decide +kernel, by decide +kernel, by decide +kernel,
    by decide +kernel⟩, by decide +kernel, by decide +kernel⟩
  obtain ⟨single, _, several, products, endless⟩ := constructions_pass_checks
  have apart : NFA.checkCompatible [n p, n q] = .ok () := by decide +kernel
  have shared : NFA.checkCompatible [n p, n p] = .error (.sharedStates (.ofList [p])) := by
    decide +kernel
  have first : Allocator.HandsOut {} [q] { next := 1 } :=
    .cons (Prod.ext (by decide +kernel) rfl) .nil
  have second : Allocator.HandsOut { next := 1 } [⟨"q1"⟩] { next := 2 } :=
    .cons (Prod.ext (by decide +kernel) rfl) .nil
  obtain ⟨⟨m, concatenated⟩, unite⟩ := (several (n p) [n q] {}).1 apart
  refine ⟨?_, ⟨m, concatenated⟩, ?_, ?_, ?_, ?_⟩
  · obtain ⟨_, _, _, _, power, _⟩ := single (n p) {}
    obtain ⟨ps, c, length, handed⟩ := endless {} 2 rfl
    exact (power 2 (by decide)).ok ps c length handed id
  · exact unite.refused [q] _ rfl first ⟨q, List.mem_cons_self, n q, by simp, by decide⟩
  · exact ((several (n p) [n q] { next := 1 }).1 apart).2.ok _ _ rfl second (by decide +kernel)
  · exact ⟨_, ((several (n p) [n p] {}).2 _ shared).1, rfl⟩
  · obtain ⟨⟨m, built⟩, _⟩ := products d e (by decide +kernel)
    exact ⟨d, e, m, DFA.ofDiagram_eq d.closed d.label_mem d.total,
      DFA.ofDiagram_eq e.closed e.label_mem e.total, built⟩

/-- A copy of two states needs two names, and an allocator that starts at its largest number has
    one. Nothing is made of no operands, and operands over different alphabets are refused. -/
theorem constructions_fail :
    let A : Alphabet := ⟨.ofList ['a'], by decide, by decide⟩
    let B : Alphabet := ⟨.ofList ['b'], by decide, by decide⟩
    let x : State := ⟨"x"⟩
    let y : State := ⟨"y"⟩
    let n : NFA := ⟨⟨.ofList [x, y], A, .ofList [⟨x, "a", y⟩], x, .ofList [y]⟩,
      ⟨by decide, by decide, by decide, by decide⟩, by decide⟩
    let m : NFA := ⟨⟨.ofList [⟨"z"⟩], B, ∅, ⟨"z"⟩, ∅⟩,
      ⟨by decide, by decide, by decide, by decide⟩, by decide⟩
    (n.clone.runFrom (.startingAt "q" Text.largestNumber ∅)).1 = .error .numbersExhausted ∧
      NFA.checkCompatible [] = .ok () ∧ NFA.concatenate [] = .error .nothingToConcatenate ∧
      ((NFA.union []).runFrom {}).1 = .error .nothingToUnite ∧
      ((NFA.union [n, m]).runFrom {}).1 = .error (.alphabetsDiffer A.symbols B.symbols) := by
  intro A B x y n m
  refine ⟨(n.clone_draws _).exhausted ?_, rfl, rfl, rfl, ?_⟩
  · rintro ⟨ps, c, length, handed⟩
    have size : n.states.size = 2 := by decide +kernel
    have left := handed.length_le rfl (Int.le_of_lt (Int.lt_succ _))
    rw [length, size] at left
    dsimp only [Allocator.startingAt] at left
    omega
  · exact NFA.union_of_check_error (by decide +kernel)

end Automata
