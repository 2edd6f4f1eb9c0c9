import Automata.Proofs.CommandLine.Extract

/-! # Testing texts against a pattern

A text is tested by the automaton of a pattern, by its subset construction or by the minimal
automaton of that. All three give one answer, so the options of the command choose the automaton
that is described, and nothing else.
-/

namespace Automata

namespace NFA

variable {A : Alphabet} {pattern : String} {simplified : Bool} {n : NFA} {c : Allocator}

/-- The automaton of a pattern consists of drawn states, whose names separate all sets of them. -/
theorem separate_of_compile (compiles : (compile A pattern simplified).runFrom {} = (.ok n, c)) :
    n.Separate := by
  obtain ⟨_, _, _, _, drawn, _⟩ := ((compile_ensures A pattern simplified {}).of_ok compiles).2
  exact separate_of_drawn drawn

/-- A text gets an answer unless a character of it is not in the alphabet. -/
theorem accepts_cases (n : NFA) (word : String) :
    (∃ b, n.accepts word = .ok b) ∨ ∃ e, n.accepts word = .error e ∧ e.kind = .alphabet := by
  by_cases covered : ∀ c ∈ word.toList, c ∈ n.alphabet
  · exact .inl ⟨_, accepts_eq covered⟩
  · obtain ⟨e, failure, kind⟩ := Alphabet.check_error covered
    refine .inr ⟨e, ?_, kind⟩
    rw [accepts, failure]
    rfl

end NFA

namespace CommandLine.Command

variable {pattern alphabet : String} {n : NFA} {texts : List String} {dfa minimize describe : Bool}

theorem separate_of_compiled (compiles : compiled pattern alphabet = .ok n) : n.Separate := by
  cases given : Alphabet.ofString alphabet with
  | error e =>
      rw [compiled, given] at compiles
      cases compiles
  | ok A => exact (of_compiled given compiles).1

/-- The diagram of the automaton that the options ask for. -/
def described (n : NFA) (dfa minimize : Bool) : Except Error StateDiagram :=
  if dfa || minimize then do return (← determinized n minimize).diagram
  else return n.toStateDiagram

/-- The automaton that the options ask for always exists, and what is printed about texts is what
    the automaton of the pattern says about them. -/
theorem run_regex (compiles : compiled pattern alphabet = .ok n) (separate : n.Separate) :
    ∃ diagram, described n dfa minimize = .ok diagram ∧
      run (.regex pattern alphabet texts dfa minimize describe) = (do
        let report ← automatonReport pattern texts describe n.accepts diagram
        return report.render 0 ++ "\n") := by
  by_cases asked : (dfa || minimize) = true
  · obtain ⟨d, determinizes, _, accepts⟩ := determinized_ok separate minimize
    have answers : d.accepts = n.accepts := funext accepts
    refine ⟨d.diagram, ?_, ?_⟩
    · rw [described, if_pos asked, determinizes]
      rfl
    · simp only [run, runWith, bind, Except.bind, compiles, if_pos asked, determinizes, answers]
  · refine ⟨n.toStateDiagram, ?_, ?_⟩
    · rw [described, if_neg asked]
      rfl
    · simp only [run, runWith, bind, Except.bind, compiles, if_neg asked]

/-- For every pattern the three automata exist and give every text the same answer: a truth value
    or an error about the alphabet. The options of the command choose the diagram that is shown on
    request, and without that request they change nothing. -/
theorem regex_answers_agree (pattern : String) :
    (∀ (A : Alphabet) (simplified : Bool) (n : NFA) (c : Allocator),
      (NFA.compile A pattern simplified).runFrom {} = (.ok n, c) →
        ∃ d m, n.determinize = .ok d ∧ d.minimize = .ok m ∧ ∀ word : String,
          d.accepts word = n.accepts word ∧ m.accepts word = n.accepts word ∧
            ((∃ b, n.accepts word = .ok b) ∨
              ∃ e, n.accepts word = .error e ∧ e.kind = .alphabet)) ∧
    ∀ (alphabet : String) (texts : List String) (dfa minimize : Bool),
      (∀ describe, run (.regex pattern alphabet texts dfa minimize describe) = (do
        let n ← compiled pattern alphabet
        let diagram ← described n dfa minimize
        let report ← automatonReport pattern texts describe n.accepts diagram
        return report.render 0 ++ "\n")) ∧
      run (.regex pattern alphabet texts dfa minimize false) =
        run (.regex pattern alphabet texts false false false) := by
  constructor
  · intro A simplified n c compiles
    obtain ⟨d, determinizes, _, accepts⟩ :=
      NFA.determinize_accepts (NFA.separate_of_compile compiles)
    obtain ⟨m, minimizes, _, accepts'⟩ := d.minimize_accepts
    refine ⟨d, m, determinizes, minimizes, fun word => ⟨accepts word, ?_, n.accepts_cases word⟩⟩
    rw [accepts', accepts]
  · intro alphabet texts dfa minimize
    cases compiles : compiled pattern alphabet with
    | error e => simp only [run, runWith, bind, Except.bind, compiles, implies_true, and_self]
    | ok n =>
        have separate := separate_of_compiled compiles
        constructor
        · intro describe
          obtain ⟨diagram, shown, printed⟩ := run_regex compiles separate
          rw [printed]
          simp only [bind, Except.bind, shown]
        · obtain ⟨_, _, printed⟩ := run_regex compiles separate
          obtain ⟨_, _, printed'⟩ := run_regex compiles separate
          rw [printed, printed']
          rfl

/-- The pattern `a*b|c`, whose three automata all accept `aab`. -/
theorem regex_answers_agree_aab :
    let A : Alphabet := ⟨.ofList ['a', 'b', 'c'], by decide, by decide⟩
    ∃ n c, (NFA.compile A "a*b|c" true).runFrom {} = (.ok n, c) ∧ n.accepts "aab" = .ok true ∧
      ∃ d m, n.determinize = .ok d ∧ d.minimize = .ok m ∧ d.accepts "aab" = .ok true ∧
        m.accepts "aab" = .ok true := by
  intro A
  have accepted : (((NFA.compile A "a*b|c" true).runFrom {}).1.toOption.any fun n =>
      (n.accepts "aab").toOption.getD false) = true := by
    decide +kernel
  cases compiles : (NFA.compile A "a*b|c" true).runFrom {} with
  | mk result c =>
      rw [compiles] at accepted
      cases result with
      | error e => cases accepted
      | ok n =>
          simp only [Except.toOption, Option.any_some] at accepted
          cases answer : n.accepts "aab" with
          | error e =>
              rw [answer] at accepted
              cases accepted
          | ok b =>
              rw [answer] at accepted
              obtain rfl : b = true := accepted
              obtain ⟨d, m, determinizes, minimizes, agree⟩ :=
                (regex_answers_agree "a*b|c").1 A true n c compiles
              obtain ⟨first, second, _⟩ := agree "aab"
              exact ⟨n, c, rfl, answer, d, m, determinizes, minimizes, first.trans answer,
                second.trans answer⟩

end CommandLine.Command

end Automata
