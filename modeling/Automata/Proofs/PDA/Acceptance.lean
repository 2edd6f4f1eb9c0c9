import Automata.Proofs.PDA.Run

/-! # Acceptance within a bound

An automaton accepts exactly the words that a run within its bound reads. What runs there are
depends on its diagram alone, so the automaton of the same diagram with a wider bound accepts no
less.
-/

namespace Automata.PDA

variable {d : StackDiagram} {bound : Option Int} {m m' : PDA} {j k : Nat} {a : Symbol}
  {C D : Configuration} {w : List Char}

/-- The automaton of a diagram has its states and rules, and the bound that is asked for. -/
theorem ofDiagram_spec (built : ofDiagram d bound = .ok m) :
    m.toStackDiagram = d ∧ (m.bound : Int) = bound.getD d.states.size := by
  unfold ofDiagram at built
  cases checked : d.checkClosed with
  | error e =>
      rw [checked] at built
      cases built
  | ok closed =>
      rw [checked] at built
      cases bound with
      | none =>
          cases built
          exact ⟨rfl, rfl⟩
      | some k =>
          change (if k < 0 then _ else _) = Except.ok m at built
          split at built
          · cases built
          · cases built
            exact ⟨rfl, Int.toNat_of_nonneg (by omega)⟩

theorem Move.of_diagram (same : m.toStackDiagram = m'.toStackDiagram) (move : m.Move a C D) :
    m'.Move a C D := by
  cases move with
  | free rule => exact .free (same ▸ rule)
  | pop rule => exact .pop (same ▸ rule)

/-- Runs do not depend on the bound of the automaton, only on the one they are held to. -/
theorem HasRun.of_diagram (same : m.toStackDiagram = m'.toStackDiagram) (wider : j ≤ k)
    (has : m.HasRun j w) : m'.HasRun k w := by
  have simulates {a C C' D} (equal : C = C') (move : m.Move a C D) :
      ∃ D', m'.Move a C' D' ∧ D = D' := by
    subst equal
    exact ⟨D, move.of_diagram same, rfl⟩
  obtain ⟨D, accepting, run⟩ := has
  obtain ⟨D, run', rfl⟩ := run.simulate simulates rfl
  exact ⟨D, same ▸ accepting, same ▸ run'.mono wider⟩

/-- Over its input alphabet an automaton always answers, and accepts the words that some run reads
    with no more ε-moves before, between and after the characters than the bound. With a wider bound
    it accepts no less. -/
theorem accepts_iff_hasRun (built : ofDiagram d bound = .ok m) :
    (m.toStackDiagram = d ∧ (m.bound : Int) = bound.getD d.states.size) ∧
    (∀ word : String, (∀ a ∈ word.toList, a ∈ d.input) →
      ∃ b, m.accepts word = .ok b ∧ (b = true ↔ m.HasRun m.bound word.toList)) ∧
    ∀ (bound' : Option Int) (m' : PDA), ofDiagram d bound' = .ok m' → m.bound ≤ m'.bound →
      ∀ word, m.accepts word = .ok true → m'.accepts word = .ok true := by
  obtain ⟨diagram, given⟩ := ofDiagram_spec built
  refine ⟨⟨diagram, given⟩, fun word covered => accepts_ok (diagram ▸ covered), ?_⟩
  intro bound' m' built' wider word accepted
  have same : m.toStackDiagram = m'.toStackDiagram :=
    diagram.trans (ofDiagram_spec built').1.symm
  obtain ⟨covered, has⟩ := accepts_iff.mp accepted
  exact accepts_iff.mpr ⟨same ▸ covered, has.of_diagram same wider⟩

/-- The words `aⁿbⁿ`: an ε-move marks the bottom, an ε-move ends the run at it. -/
def balanced : StackDiagram where
  states := .ofList [⟨"q0"⟩, ⟨"q1"⟩, ⟨"q2"⟩]
  input := ⟨.ofList ['a', 'b'], by decide, by decide⟩
  stack := ⟨.ofList ["a", "$"], by decide, by decide⟩
  rules := .ofList [⟨⟨"q0"⟩, "ε", "ε", ⟨"q1"⟩, "$"⟩, ⟨⟨"q1"⟩, "ε", "a", ⟨"q1"⟩, "a"⟩,
    ⟨⟨"q1"⟩, "a", "b", ⟨"q1"⟩, "ε"⟩, ⟨⟨"q1"⟩, "$", "ε", ⟨"q2"⟩, "ε"⟩]
  start := ⟨"q0"⟩
  accepting := .singleton ⟨"q2"⟩

/-- One ε-move at a time is enough to accept `aabb`. -/
theorem accepts_iff_hasRun_balanced :
    ∃ m, ofDiagram balanced (some 1) = .ok m ∧ m.bound = 1 ∧ m.accepts "aabb" = .ok true ∧
      m.HasRun 1 "aabb".toList := by
  obtain ⟨m, built, accepted⟩ : ∃ m, ofDiagram balanced (some 1) = .ok m ∧
      m.accepts "aabb" = .ok true :=
    exists_ok_of_any (by decide +kernel)
  have covered : ∀ x ∈ "aabb".toList, x ∈ balanced.input := by
    have letters : 'a' ∈ balanced.input ∧ 'b' ∈ balanced.input := by decide
    simp [letters]
  obtain ⟨⟨_, bound⟩, answers, _⟩ := accepts_iff_hasRun built
  obtain ⟨b, answer, reads⟩ := answers "aabb" covered
  have one : m.bound = 1 := Int.ofNat_inj.mp bound
  have yes : b = true := Except.ok.inj (answer.symm.trans accepted)
  exact ⟨m, built, one, accepted, one ▸ reads.mp yes⟩

end Automata.PDA
