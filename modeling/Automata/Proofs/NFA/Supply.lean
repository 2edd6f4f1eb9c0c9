import Automata.Proofs.NFA.StateCount
import Automata.Proofs.Regex.Descent
import Automata.Proofs.Regex.Printer
import Automata.Regex.Characters

/-! # The errors of compilation

A pattern is compiled unless it is outside the grammar, mentions a character from outside the
alphabet, or asks for more states than the allocator has left; no check on the parts ever fails.
-/

namespace Automata

open Building

namespace Regex

variable {pattern : String} {items : List Regex}

/-- Reading settles whether a pattern belongs to the grammar. -/
theorem parseItems_eq_ok : parseItems pattern = .ok items ↔ IsAlternation pattern.toList items := by
  refine ⟨isAlternation_of_parseItems, fun h => ?_⟩
  rw [← parseItems_ok h, String.ofList_toList]

theorem parse_eq : parse pattern = (parseItems pattern).map ofItems := by
  rw [parse]
  cases parseItems pattern <;> rfl

theorem parse_ne_exhausted :
    parse pattern ≠ .error .numbersExhausted := by
  refine bind_ne_error (fun failure => ?_) fun _ => by simp [pure, Except.pure]
  cases parseItems_kind failure

end Regex

namespace NFA

variable {A : Alphabet} {a : Allocator} {r : Regex} {pattern : String} {items : List Regex}

theorem compile_takes (simplified : Bool) (parsed : Regex.parse pattern = .ok r) :
    (compile A pattern simplified).Takes a r.stateCount fun _ _ => True := by
  unfold compile
  refine .check_bind Regex.parse_ne_exhausted fun s ok => ?_
  obtain rfl : r = s := Except.ok.inj (parsed.symm.trans ok)
  refine (ofRegex_takes r a).bind (k := 0) fun n c ps _ _ => ?_
  cases simplified with
  | false => exact .pure trivial
  | true => exact .check (fun _ _ => trivial) simplify_ne_exhausted

/-- A pattern that is read is compiled, or one of its characters is foreign, or it takes more
    states than there are. -/
theorem compile_of_parse (A : Alphabet) (simplified : Bool) (a : Allocator)
    (parsed : Regex.parse pattern = .ok r) :
    (∃ n, ((compile A pattern simplified).runFrom a).1 = .ok n) ∧ r.IsOver A ∧
        a.Supplies r.stateCount ∨
      (∃ e, ((compile A pattern simplified).runFrom a).1 = .error e ∧ e.kind = .alphabet) ∧
        ¬ r.IsOver A ∨
      ((compile A pattern simplified).runFrom a).1 = .error .numbersExhausted ∧
        ¬ a.Supplies r.stateCount := by
  have takes := compile_takes (A := A) (a := a) simplified parsed
  cases run : (compile A pattern simplified).runFrom a with
  | mk result c =>
      cases result with
      | ok n =>
          obtain ⟨s, parsed', covered, _⟩ :=
            ((compile_ensures A pattern simplified a).of_ok run).2
          obtain rfl : r = s := Except.ok.inj (parsed.symm.trans parsed')
          exact .inl ⟨⟨n, rfl⟩, covered, takes.supplies (by rw [run])⟩
      | error e =>
          rcases (compile_ensures A pattern simplified a).of_error run with
            (failure | ⟨kind, s, parsed', foreign⟩) | ⟨rfl, _⟩
          · cases parsed.symm.trans failure
          · obtain rfl : r = s := Except.ok.inj (parsed.symm.trans parsed')
            exact .inr (.inl ⟨⟨e, rfl, kind⟩, foreign⟩)
          · exact .inr (.inr ⟨rfl, fun enough => takes.ne_numbersExhausted enough (by rw [run])⟩)

/-- A pattern of the grammar is compiled, or one of its characters is foreign, or it takes more
    states than there are. -/
theorem compile_of_isAlternation (A : Alphabet) (simplified : Bool) (a : Allocator)
    (h : Regex.IsAlternation pattern.toList items) :
    (∃ n, ((compile A pattern simplified).runFrom a).1 = .ok n) ∧
        (∀ c ∈ Regex.charactersOfAll items, c ∈ A) ∧
        a.Supplies (Regex.ofItems items).stateCount ∨
      (∃ e, ((compile A pattern simplified).runFrom a).1 = .error e ∧ e.kind = .alphabet) ∧
        (∃ c ∈ Regex.charactersOfAll items, c ∉ A) ∨
      ((compile A pattern simplified).runFrom a).1 = .error .numbersExhausted ∧
        ¬ a.Supplies (Regex.ofItems items).stateCount := by
  have parsed : Regex.parse pattern = .ok (Regex.ofItems items) := by
    rw [Regex.parse_eq, Regex.parseItems_eq_ok.mpr h]
    rfl
  have covered : (Regex.ofItems items).IsOver A ↔ ∀ c ∈ Regex.charactersOfAll items, c ∈ A :=
    Regex.isOver_ofItems.trans (Regex.areOver_iff_characters items h.areWritable)
  have foreign : ¬ (Regex.ofItems items).IsOver A ↔
      ∃ c ∈ Regex.charactersOfAll items, c ∉ A := by
    simp [covered]
  rw [← covered, ← foreign]
  exact compile_of_parse A simplified a parsed

theorem compile_of_not_isAlternation (A : Alphabet) (simplified : Bool) (a : Allocator)
    (outside : ¬ ∃ items, Regex.IsAlternation pattern.toList items) :
    ∃ e, ((compile A pattern simplified).runFrom a).1 = .error e ∧ e.kind = .pattern := by
  cases parsed : Regex.parseItems pattern with
  | ok items => exact absurd ⟨items, Regex.parseItems_eq_ok.mp parsed⟩ outside
  | error e =>
      refine ⟨e, ?_, Regex.parseItems_kind parsed⟩
      rw [compile, Regex.parse_eq, parsed]
      rfl

/-- A pattern is refused as one, or for a foreign character, or the numbers run out. -/
theorem kind_of_compile_error {simplified : Bool} {e : Error}
    (failure : ((compile A pattern simplified).runFrom a).1 = .error e) :
    e.kind = .pattern ∧ (¬ ∃ items, Regex.IsAlternation pattern.toList items) ∨
      e.kind = .alphabet ∨ e = .numbersExhausted := by
  by_cases readable : ∃ items, Regex.IsAlternation pattern.toList items
  · obtain ⟨items, h⟩ := readable
    rcases compile_of_isAlternation A simplified a h with
      ⟨⟨n, result⟩, _⟩ | ⟨⟨e', result, kind⟩, _⟩ | ⟨result, _⟩
    · cases failure.symm.trans result
    · cases failure.symm.trans result
      exact .inr (.inl kind)
    · cases failure.symm.trans result
      exact .inr (.inr rfl)
  · obtain ⟨e', result, kind⟩ := compile_of_not_isAlternation A simplified a readable
    cases failure.symm.trans result
    exact .inl ⟨kind, readable⟩

/-- The errors of compilation. One of the pattern means that it is outside the grammar. A pattern
    of the grammar fails over a character from outside the alphabet, wherever it stands, and is
    compiled otherwise, as long as the allocator has the states that it takes; where it has not,
    the numbers run out unless a foreign character is found first. There are no other errors. -/
theorem compile_errors (A : Alphabet) (pattern : String) (simplified : Bool) (a : Allocator) :
    ((∃ e, ((compile A pattern simplified).runFrom a).1 = .error e ∧ e.kind = .pattern) ↔
      ¬ ∃ items, Regex.IsAlternation pattern.toList items) ∧
    (∀ items, Regex.IsAlternation pattern.toList items →
      (a.largest = none → a.Supplies (Regex.ofItems items).stateCount) ∧
      (a.Supplies (Regex.ofItems items).stateCount →
        ((∃ e, ((compile A pattern simplified).runFrom a).1 = .error e ∧ e.kind = .alphabet) ↔
          ∃ c ∈ Regex.charactersOfAll items, c ∉ A) ∧
        ((∃ n, ((compile A pattern simplified).runFrom a).1 = .ok n) ↔
          ∀ c ∈ Regex.charactersOfAll items, c ∈ A)) ∧
      (¬ a.Supplies (Regex.ofItems items).stateCount →
        ((compile A pattern simplified).runFrom a).1 = .error .numbersExhausted ∨
          (∃ e, ((compile A pattern simplified).runFrom a).1 = .error e ∧ e.kind = .alphabet) ∧
            ∃ c ∈ Regex.charactersOfAll items, c ∉ A)) ∧
    ∀ e, ((compile A pattern simplified).runFrom a).1 = .error e →
      e.kind = .pattern ∨ e.kind = .alphabet ∨ e = .numbersExhausted := by
  refine ⟨⟨?_, compile_of_not_isAlternation A simplified a⟩, fun items h => ?_, fun e failure => ?_⟩
  · rintro ⟨e, failure, kind⟩
    rcases kind_of_compile_error failure with ⟨_, outside⟩ | other | rfl
    · exact outside
    · cases kind.symm.trans other
    · cases kind
  · refine ⟨fun endless => supplies_of_endless endless _, ?_⟩
    rcases compile_of_isAlternation A simplified a h with
      ⟨⟨n, result⟩, known, enough⟩ | ⟨⟨e, result, kind⟩, foreign⟩ | ⟨result, lacking⟩
    · rw [result]
      exact ⟨fun _ => ⟨by simpa using known, by simpa using known⟩,
        fun lacking => absurd enough lacking⟩
    · rw [result]
      refine ⟨fun _ => ⟨iff_of_true ⟨e, rfl, kind⟩ foreign, iff_of_false (by simp) ?_⟩,
        fun _ => .inr ⟨⟨e, rfl, kind⟩, foreign⟩⟩
      simpa using foreign
    · exact ⟨fun enough => absurd enough lacking, fun _ => .inl result⟩
  · exact (kind_of_compile_error failure).imp_left And.left

/-- An allocator that starts at its largest number names one state, and a character takes two. -/
theorem compile_runs_out :
    ∃ (A : Alphabet) (items : List Regex), Regex.IsAlternation "a".toList items ∧
      (∀ c ∈ Regex.charactersOfAll items, c ∈ A) ∧ ∀ simplified,
        ((compile A "a" simplified).runFrom (.startingAt "q" Text.largestNumber ∅)).1 =
          .error .numbersExhausted := by
  let A : Alphabet := ⟨.ofList ['a'], by decide, by decide⟩
  have shape : (∀ simplified, ((compile A "a" simplified).runFrom
      (.startingAt "q" Text.largestNumber ∅)).1.isOk = false) ∧
      Regex.parseItems "a" = .ok [.lit "a"] ∧ Regex.charactersOfAll [.lit "a"] = ['a'] := by
    decide +kernel
  -- from here on the number is not looked at any more
  generalize Allocator.startingAt "q" Text.largestNumber ∅ = a at shape ⊢
  obtain ⟨fails, parsed, characters⟩ := shape
  have inside : ∀ c ∈ Regex.charactersOfAll [.lit "a"], c ∈ A := by
    rw [characters]
    exact List.forall_mem_singleton.mpr (by decide)
  refine ⟨A, _, Regex.parseItems_eq_ok.mp parsed, inside, fun simplified => ?_⟩
  rcases compile_of_isAlternation A simplified a (Regex.parseItems_eq_ok.mp parsed) with
    ⟨⟨n, result⟩, _⟩ | ⟨_, c, member, foreign⟩ | ⟨result, _⟩
  · have fails := fails simplified
    rw [result] at fails
    cases fails
  · exact absurd (inside c member) foreign
  · exact result

end NFA

end Automata
