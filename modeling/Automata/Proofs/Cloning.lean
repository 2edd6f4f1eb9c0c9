import Automata.Proofs.DFA.Reduced
import Automata.Proofs.DFA.Rename
import Automata.Proofs.NFA.Draws

/-! # Clones

A clone is its original under the names that an allocator hands out next: the first state in order
gets the first of them, the second one the second, and so on. All states are renamed at once, so a
new name may be that of an old state which is renamed itself.
-/

namespace Automata

open Building

variable {a c : Allocator} {names : List State}

theorem NFA.clone_run (n : NFA) (length : names.length = n.states.size)
    (handed : a.HandsOut names c) :
    ∃ m, n.clone.runFrom a = (.ok m, c) ∧ n.toStateDiagram.CopiedAs m.toStateDiagram names ∧
      ∀ word, m.accepts word = n.accepts word := by
  obtain ⟨m, run, f, renamed, iso⟩ :=
    (n.clone_draws a).run_of_handsOut clone_copies length handed
  exact ⟨m, run, ⟨f, renamed, iso⟩, accepts_of_isomorphism iso⟩

theorem DFA.clone_run (d : DFA) (length : names.length = d.states.size)
    (handed : a.HandsOut names c) :
    ∃ e, d.clone.runFrom a = (.ok e, c) ∧ d.diagram.CopiedAs e.diagram names ∧
      ∀ word, e.accepts word = d.accepts word := by
  obtain ⟨e, run, f, renamed, iso⟩ :=
    (d.clone_draws a).run_of_handsOut clone_copies length handed
  exact ⟨e, run, ⟨f, renamed, iso⟩, accepts_of_isomorphism iso⟩

/-- Cloning renames the states of an automaton, in order, to the next names of an allocator, which
    is left as it is after handing them out. The clone has a start, accepting states and edges
    where its original has them, ε-moves included, and no others, and it accepts the same words.
    It fails only if the allocator runs out of names, and an endless one never does. -/
theorem clone_isomorphic :
    (∀ (n : NFA) (a : Allocator),
      (∀ names c, names.length = n.states.size → a.HandsOut names c →
        ∃ m, n.clone.runFrom a = (.ok m, c) ∧ n.toStateDiagram.CopiedAs m.toStateDiagram names ∧
          ∀ word, m.accepts word = n.accepts word) ∧
      (¬ a.Supplies n.states.size → (n.clone.runFrom a).1 = .error .numbersExhausted)) ∧
    (∀ (d : DFA) (a : Allocator),
      (∀ names c, names.length = d.states.size → a.HandsOut names c →
        ∃ e, d.clone.runFrom a = (.ok e, c) ∧ d.diagram.CopiedAs e.diagram names ∧
          ∀ word, e.accepts word = d.accepts word) ∧
      (¬ a.Supplies d.states.size → (d.clone.runFrom a).1 = .error .numbersExhausted)) ∧
    ∀ (a : Allocator) (k : Nat), a.largest = none → a.Supplies k := by
  refine ⟨fun n a => ⟨fun names c length handed => ?_, ?_⟩,
    fun d a => ⟨fun names c length handed => ?_, ?_⟩, fun a k endless => ?_⟩
  · exact n.clone_run length handed
  · exact (n.clone_draws a).exhausted
  · exact d.clone_run length handed
  · exact (d.clone_draws a).exhausted
  · exact supplies_of_endless endless k

/-- The new name of the first state is the old name of the second one. -/
theorem clone_isomorphic_overlap :
    let A : Alphabet := ⟨.ofList ['a'], by decide, by decide⟩
    let p : State := ⟨"q0"⟩
    let q : State := ⟨"q1"⟩
    let r : State := ⟨"q2"⟩
    let n : NFA := ⟨⟨.ofList [p, q], A, .ofList [⟨p, "a", q⟩, ⟨q, .epsilon, p⟩], p, .ofList [q]⟩,
      ⟨by decide, by decide, by decide, by decide⟩, by decide⟩
    let swap : MoveDiagram :=
      ⟨.ofList [p, q], A, .ofList [((p, "a"), q), ((q, "a"), p)], p, .ofList [q]⟩
    (∃ m c, n.clone.runFrom { next := 1 } = (.ok m, c) ∧
      n.toStateDiagram.CopiedAs m.toStateDiagram [q, r]) ∧
    ∃ d e c, DFA.ofDiagram swap = .ok d ∧ d.clone.runFrom { next := 1 } = (.ok e, c) ∧
      d.diagram.CopiedAs e.diagram [q, r] := by
  intro A p q r n swap
  let d : DFA := ⟨swap, ⟨by decide +kernel, by decide +kernel, by decide +kernel,
    by decide +kernel⟩, by decide +kernel, by decide +kernel⟩
  obtain ⟨nondeterministic, deterministic, _⟩ := clone_isomorphic
  have handed : Allocator.HandsOut { next := 1 } [q, r] { next := 3 } :=
    .cons (Prod.ext (by decide +kernel) rfl) (.cons (Prod.ext (by decide +kernel) rfl) .nil)
  obtain ⟨m, run, copied, _⟩ := (nondeterministic n _).1 [q, r] _ (by decide +kernel) handed
  obtain ⟨e, run', copied', _⟩ := (deterministic d _).1 [q, r] _ (by decide +kernel) handed
  exact ⟨⟨m, _, run, copied⟩, d, e, _, DFA.ofDiagram_eq d.closed d.label_mem d.total, run', copied'⟩

/-- Two states need two names, and an allocator that starts at its largest number has one. -/
theorem clone_runs_out :
    let A : Alphabet := ⟨.ofList ['a'], by decide, by decide⟩
    let x : State := ⟨"x"⟩
    let y : State := ⟨"y"⟩
    let swap : MoveDiagram :=
      ⟨.ofList [x, y], A, .ofList [((x, "a"), y), ((y, "a"), x)], x, .ofList [y]⟩
    ∃ d, DFA.ofDiagram swap = .ok d ∧
      (d.clone.runFrom (.startingAt "q" Text.largestNumber ∅)).1 = .error .numbersExhausted := by
  intro A x y swap
  let d : DFA := ⟨swap, ⟨by decide +kernel, by decide +kernel, by decide +kernel,
    by decide +kernel⟩, by decide +kernel, by decide +kernel⟩
  refine ⟨d, DFA.ofDiagram_eq d.closed d.label_mem d.total, (d.clone_draws _).exhausted ?_⟩
  have size : d.states.size = 2 := by decide +kernel
  rw [size]
  refine Allocator.not_supplies_of_largest rfl (Int.le_of_lt (Int.lt_succ _)) ?_
  dsimp only [Allocator.startingAt]
  omega

end Automata
