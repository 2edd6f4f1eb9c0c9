import Automata.PDA.Run

/-! # Runs of pushdown automata, move by move

A single run goes from configuration to configuration by one rule at a time. Before, between and
after the characters of the word it may make a bounded number of ε-moves.
-/

namespace Automata.PDA

/-- One rule that reads a symbol leads from one configuration to another. -/
inductive Move (m : PDA) (a : Symbol) : Configuration → Configuration → Prop where
  /-- A rule that pops nothing works on any stack. -/
  | free {p q : State} {pushed : Symbol} {stack : List Symbol} :
      ⟨p, Symbol.epsilon, a, q, pushed⟩ ∈ m.rules →
        Move m a ⟨p, stack⟩ ⟨q, Configuration.push stack pushed⟩
  /-- Any other rule needs its symbol on top, and removes it. -/
  | pop {p q : State} {top pushed : Symbol} {stack : List Symbol} :
      ⟨p, top, a, q, pushed⟩ ∈ m.rules →
        Move m a ⟨p, top :: stack⟩ ⟨q, Configuration.push stack pushed⟩

/-- At most a number of ε-moves lead from one configuration to another. -/
inductive Waits (m : PDA) : Nat → Configuration → Configuration → Prop where
  /-- No move has to be made. -/
  | stay {k : Nat} {c : Configuration} : Waits m k c c
  /-- A move in front takes one more. -/
  | move {k : Nat} {c d e : Configuration} :
      Move m Symbol.epsilon c d → Waits m k d e → Waits m (k + 1) c e

/-- A run that reads a word leads from one configuration to another, with a bound on the ε-moves
    before, between and after the characters. -/
inductive Run (m : PDA) (k : Nat) : Configuration → List Char → Configuration → Prop where
  /-- After the last character there are only ε-moves. -/
  | done {c d : Configuration} : Waits m k c d → Run m k c [] d
  /-- ε-moves come before a character is read. -/
  | read {c d e f : Configuration} {a : Char} {w : List Char} :
      Waits m k c d → Move m (Symbol.ofChar a) d e → Run m k e w f → Run m k c (a :: w) f

theorem Waits.mono {m : PDA} {j k : Nat} {c d : Configuration} (h : Waits m j c d)
    (hjk : j ≤ k) : Waits m k c d := by
  induction h generalizing k with
  | stay => exact .stay
  | move hm _ ih =>
    cases k with
    | zero => exact absurd hjk (Nat.not_succ_le_zero _)
    | succ k => exact .move hm (ih (Nat.le_of_succ_le_succ hjk))

theorem Run.mono {m : PDA} {j k : Nat} {c d : Configuration} {w : List Char}
    (h : Run m j c w d) (hjk : j ≤ k) : Run m k c w d := by
  induction h with
  | done hw => exact .done (hw.mono hjk)
  | read hw hm _ ih => exact .read (hw.mono hjk) hm ih

/-- Some run within a bound reads a word from the start, with an empty stack, to an accepting
    state. -/
def HasRun (m : PDA) (k : Nat) (w : List Char) : Prop :=
  ∃ d, d.state ∈ m.accepting ∧ Run m k ⟨m.start, []⟩ w d

end Automata.PDA
