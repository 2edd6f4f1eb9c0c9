import Automata.Proofs.NFA.Extend
import Automata.Proofs.NFA.StateCount
import Mathlib.Algebra.BigOperators.Group.List.Basic

/-! # How constructions on automata fail

Clones and powers are made of drawn states only and never clash. A star, a union and a bridge add
drawn states to those of their operands, and they fail exactly if one of these is there already.
-/

namespace Automata.NFA

open Building StateDiagram

variable {n first : NFA} {l others : List NFA} {a : Allocator} {d : StateDiagram} {k : Nat}
  {E : Error → Prop} {clashes : List State → Prop}

theorem ofDiagram_draws (closed : d.Closed) (labels : WellLabelled d) (fine : ¬ clashes []) :
    (check (ofDiagram d)).Draws a 0 clashes := by
  rw [ofDiagram_ok closed labels]
  exact .check_ok fine

theorem clone_draws (n : NFA) (a : Allocator) : n.clone.Draws a n.states.size fun _ => False :=
  .of_ensures clone_ensures clone_takes

/-! ### Powers -/

/-- Copies are isomorphic to their original, and each consists of states drawn for it alone. -/
theorem copies_ensures (k : Nat) : (n.copies k).Ensures a (fun l c => l.length = k ∧
    (∀ m ∈ l, (∃ f, Isomorphism f n.toStateDiagram m.toStateDiagram) ∧
      ∀ p ∈ m.states, a.Drawn c p) ∧ l.Pairwise Apart) E := by
  induction k generalizing a with
  | zero => exact .pure ⟨rfl, by simp, .nil⟩
  | succ k ih =>
      refine clone_ensures.bind fun m c ac ⟨copy, drawn⟩ => ih.bind fun l d cd others => .pure ?_
      obtain ⟨length, all, apart⟩ := others
      refine ⟨congrArg Nat.succ length, List.forall_mem_cons.mpr ⟨?_, fun m' later => ?_⟩,
        List.pairwise_cons.mpr ⟨fun m' later p here there => ?_, apart⟩⟩
      · exact ⟨copy, fun p member => (drawn p member).right cd⟩
      · exact ⟨(all m' later).1, fun p member => ((all m' later).2 p member).left ac⟩
      · exact ((drawn p here).past ac).not_drawn ((all m' later).2 p there)

/-- All the states that are drawn for copies are states of theirs. -/
theorem copies_takes (k : Nat) :
    (n.copies k).Takes a (k * n.states.size) ConsistJointly := by
  induction k generalizing a with
  | zero =>
      rw [Nat.zero_mul]
      exact .pure (by simp [ConsistJointly, allStates])
  | succ k ih =>
      rw [Nat.succ_mul, Nat.add_comm (k * _)]
      refine clone_takes.bind fun m c ps _ copy => ?_
      refine ih.bind (k := 0) fun l d qs _ others => .pure fun p => ?_
      have others := others p
      rw [mem_allStates] at others ⊢
      simp [copy p, others]

/-- A power of an automaton is the product of its copies. -/
theorem power_ensures {i : Int} (positive : 1 ≤ i) : (n.power i).Ensures a (fun m _ =>
    m.alphabet = n.alphabet ∧ m.language = n.language ^ i.toNat) E := by
  unfold power
  rw [if_neg (by omega)]
  refine (copies_ensures i.toNat).bind fun l c _ ⟨length, all, apart⟩ => ?_
  cases l with
  | nil =>
      simp only [List.length_nil] at length
      omega
  | cons first others =>
      have alphabets : ∀ m ∈ first :: others, m.alphabet = n.alphabet := fun m member =>
        (all m member).1.choose_spec.alphabet_eq.symm
      have languages : ∀ m ∈ first :: others, m.language = n.language := fun m member =>
        language_of_isomorphism (all m member).1.choose_spec
      obtain ⟨m, built, alphabet, _, language⟩ := concatenate_spec alphabets apart
      rw [built]
      refine .check_ok ⟨alphabet, ?_⟩
      rw [language, List.map_congr_left languages, List.map_const', List.prod_replicate, length]

/-- A power consists of the states of all the copies. -/
theorem power_takes {i : Int} (positive : 1 ≤ i) :
    (n.power i).Takes a (i.toNat * n.states.size) Consists := by
  unfold power
  rw [if_neg (by omega)]
  refine (copies_takes i.toNat).bind (k := 0) fun l c ps _ joint => ?_
  refine .check (fun m built p => ?_) concatenate_ne_exhausted
  rw [states_of_concatenate built, joint p, List.append_nil]

theorem power_draws (n : NFA) {i : Int} (positive : 1 ≤ i) (a : Allocator) :
    (n.power i).Draws a (i.toNat * n.states.size) fun _ => False :=
  .of_ensures (power_ensures positive) (power_takes positive)

/-! ### Constructions with fresh states -/

theorem star_draws (n : NFA) (a : Allocator) :
    n.star.Draws a 1 fun ps => ∃ p ∈ ps, p ∈ n.states := by
  unfold star
  refine .draw_bind fun start c _ => ?_
  split
  · rename_i taken
    exact .throw_bind rfl ⟨start, List.mem_cons_self, taken⟩
  · rename_i unused
    exact ofDiagram_draws closed_starDiagram wraps_starDiagram.wellLabelled (by simpa using unused)

/-- A union of compatible automata fails exactly if the drawn state is one of theirs. -/
theorem union_draws (a : Allocator) (compatible : checkCompatible (first :: others) = .ok ()) :
    (union (first :: others)).Draws a 1 fun ps =>
      ∃ p ∈ ps, ∃ n ∈ first :: others, p ∈ n.states := by
  unfold union
  rw [compatible]
  refine .check_bind (.draw_bind fun start c _ => ?_)
  split
  · rename_i taken
    obtain ⟨n, inside, member⟩ := List.any_eq_true.mp taken
    exact .throw_bind rfl ⟨start, List.mem_cons_self, n, inside, of_decide_eq_true member⟩
  · rename_i unused
    have labels : WellLabelled (unionDiagram first.alphabet start (first :: others)) :=
      wellLabelled_unionDiagram (compatible_of_check compatible).1
    exact ofDiagram_draws closed_unionDiagram labels (by simpa using unused)

/-- Automata that are not compatible are not united, whatever the allocator holds. -/
theorem union_of_check_error {e : Error}
    (incompatible : checkCompatible (first :: others) = .error e) :
    ((union (first :: others)).runFrom a).1 = .error e := by
  unfold union
  rw [incompatible]
  rfl

theorem withSingleAccept_draws (n : NFA) (a : Allocator) :
    n.withSingleAccept.Draws a 2 fun ps => ∃ p ∈ ps, p ∈ n.states := by
  unfold withSingleAccept
  refine .drawPair_bind fun start accept c _ => ?_
  dsimp only
  split
  · rename_i taken
    exact .throw_bind rfl (by simpa using taken)
  · rename_i unused
    exact ofDiagram_draws closed_bridgedDiagram wraps_bridgedDiagram.wellLabelled
      (by simpa using unused)

end Automata.NFA
