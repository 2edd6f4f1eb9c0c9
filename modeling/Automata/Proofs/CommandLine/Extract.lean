import Automata.CommandLine.Command
import Automata.Proofs.DFA.Determinize
import Automata.Proofs.DFA.Minimize
import Automata.Proofs.GNFA.Pattern
import Automata.Proofs.NFA.OfRegex

/-! # Compiling an extracted pattern

A pattern has no escapes, so that an operator of the alphabet cannot be written outside of choices,
and the closing bracket not even inside of them. Unless the alphabet holds operators, what is
extracted from the automaton of a pattern is compiled into an automaton that accepts alike.
-/

namespace Automata

/-! ### Compiled automata -/

/-- The names of states that the usual allocator draws hold no commas. -/
theorem NFA.separate_of_drawn {n : NFA} {c : Allocator}
    (drawn : ∀ p ∈ n.states, ({} : Allocator).Drawn c p) : n.Separate := by
  apply separate_of_names
  intro p member
  obtain ⟨i, _, _, rfl⟩ := drawn p member
  have text : (({} : Allocator).state i).name.toList = 'q' :: (toString i).toList := by
    rw [Allocator.state, String.toList_append]
    rfl
  constructor
  · intro empty
    rw [empty] at text
    cases text
  · rw [text, List.mem_cons, not_or]
    refine ⟨by decide, fun comma => ?_⟩
    rcases Allocator.isDigit_of_mem_toString comma with digit | minus
    · exact absurd digit (by decide)
    · exact absurd minus (by decide)

theorem NFA.language_eq_of_accepts {m n : NFA} (same : ∀ word, m.accepts word = n.accepts word) :
    m.language = n.language := by
  ext w
  have here := same (String.ofList w)
  rw [← String.toList_ofList (l := w), ← accepts_iff, ← accepts_iff, here]

namespace CommandLine.Command

variable {pattern alphabet text : String} {A : Alphabet} {n m s : NFA} {minimize : Bool}
  {r : Regex} {symbols : List Symbol} {c : Char}

theorem compiled_eq (given : Alphabet.ofString alphabet = .ok A) :
    compiled pattern alphabet = ((NFA.compile A pattern true).runFrom {}).1 := by
  rw [compiled, given]
  rfl

/-- What can be read and is over the alphabet is compiled. -/
theorem compiled_ok (given : Alphabet.ofString alphabet = .ok A)
    (parsed : Regex.parse pattern = .ok r) (covered : r.IsOver A) :
    ∃ n, compiled pattern alphabet = .ok n ∧ n.alphabet = A ∧ n.language = r.language A := by
  have endless : ({} : Allocator).largest = none := rfl
  obtain ⟨n, c, run, same, language⟩ := NFA.compile_ok parsed covered endless true
  refine ⟨n, ?_, same, language⟩
  rw [compiled_eq given, run]

theorem of_compiled (given : Alphabet.ofString alphabet = .ok A)
    (compiles : compiled pattern alphabet = .ok n) :
    n.Separate ∧ n.alphabet = A ∧
      ∃ r, Regex.parse pattern = .ok r ∧ n.language = r.language A := by
  rw [compiled_eq given] at compiles
  cases run : (NFA.compile A pattern true).runFrom {} with
  | mk result c =>
      rw [run] at compiles
      obtain rfl : result = .ok n := compiles
      obtain ⟨r, parsed, _, same, drawn, language⟩ :=
        ((NFA.compile_ensures A pattern true {}).of_ok run).2
      exact ⟨NFA.separate_of_drawn drawn, same, r, parsed, language⟩

/-- The subset construction and the minimal automaton of it always exist, and they accept alike. -/
theorem determinized_ok (separate : n.Separate) (minimize : Bool) :
    ∃ d, determinized n minimize = .ok d ∧ d.alphabet = n.alphabet ∧
      ∀ word, d.accepts word = n.accepts word := by
  obtain ⟨d, determinizes, alphabet, accepts⟩ := NFA.determinize_accepts separate
  cases minimize with
  | false =>
      refine ⟨d, ?_, alphabet, accepts⟩
      rw [determinized, determinizes]
      rfl
  | true =>
      obtain ⟨m, minimizes, alphabet', accepts'⟩ := d.minimize_accepts
      refine ⟨m, ?_, alphabet'.trans alphabet, fun word => (accepts' word).trans (accepts word)⟩
      rw [determinized, determinizes]
      exact minimizes

/-- The automaton that a pattern is extracted from always exists, and it accepts alike. -/
theorem source_ok (separate : n.Separate) (minimize : Bool) :
    ∃ s, source n minimize = .ok s ∧ s.alphabet = n.alphabet ∧
      ∀ word, s.accepts word = n.accepts word := by
  cases minimize with
  | false => exact ⟨n, rfl, rfl, fun _ => rfl⟩
  | true =>
      obtain ⟨d, determinizes, alphabet, accepts⟩ := determinized_ok separate true
      obtain ⟨s, copies, diagram⟩ := d.toNFA_ok
      refine ⟨s, ?_, ?_, fun word => (DFA.toNFA_accepts diagram word).trans (accepts word)⟩
      · rw [source, if_pos rfl, determinizes]
        exact copies
      · rw [← alphabet, diagram]
        rfl

/-! ### Round trips -/

/-- The pattern that is extracted from the automaton of another one is what the command echoes,
    followed by a line feed. It is compiled over the same alphabet, into an automaton that accepts
    what the first one accepts. -/
def RoundTrips (pattern alphabet : String) (minimize : Bool) : Prop :=
  ∀ n, compiled pattern alphabet = .ok n → ∃ s text m, source n minimize = .ok s ∧
    extracted s = .ok text ∧
    (∀ echo, runWith echo (.extract pattern alphabet minimize) = .ok (echo (text ++ "\n"))) ∧
    compiled text alphabet = .ok m ∧ ∀ word, m.accepts word = n.accepts word

theorem runWith_extract (compiles : compiled pattern alphabet = .ok n)
    (sources : source n minimize = .ok s) (extracts : extracted s = .ok text)
    (echo : String → String) :
    runWith echo (.extract pattern alphabet minimize) = .ok (echo (text ++ "\n")) := by
  simp only [runWith, bind, Except.bind, compiles, sources, extracts]
  rfl

/-- A pattern makes the round trip if all characters on the edges of the automaton that it is
    extracted from stand for themselves. -/
theorem roundTrips_of_readable (given : Alphabet.ofString alphabet = .ok A)
    (readable : ∀ n s, compiled pattern alphabet = .ok n → source n minimize = .ok s →
      ∀ e ∈ s.edges, e.label = Symbol.epsilon ∨
        ∃ c, Regex.StandsForItself A c ∧ e.label = Symbol.ofChar c) :
    RoundTrips pattern alphabet minimize := by
  intro n compiles
  obtain ⟨separate, same, _⟩ := of_compiled given compiles
  obtain ⟨s, sources, alphabet', accepts⟩ := source_ok separate minimize
  have alphabet'' := alphabet'.trans same
  have labels := readable n s compiles sources
  rw [← alphabet''] at labels
  obtain ⟨text, r, extracts, parsed, covered, language⟩ := NFA.toPattern_readable labels
  rw [alphabet''] at covered language
  obtain ⟨m, compiles', same', language'⟩ := compiled_ok given parsed covered
  refine ⟨s, text, m, sources, extracts, runWith_extract compiles sources extracts, compiles', ?_⟩
  intro word
  rw [← accepts word]
  exact NFA.accepts_congr (same'.trans alphabet''.symm) (language'.trans language)

/-! ### Operators -/

/-- A pattern for one of several characters is compiled into two states with an edge for each. -/
theorem compiled_choice (given : Alphabet.ofString alphabet = .ok A)
    (parsed : Regex.parse pattern = .ok r) (built : NFA.ofRegex A r = NFA.forAnyOf A symbols)
    (known : ∀ s ∈ symbols, s ∈ A.symbols) :
    ∃ n start accept, compiled pattern alphabet = .ok n ∧ start ≠ accept ∧
      n.toStateDiagram = NFA.choiceDiagram A start accept (Sorting.sort symbols) := by
  have spec : (NFA.forAnyOf A symbols).Ensures {} _ fun _ => False :=
    NFA.forAnyOf_builds.weaken (fun _ _ _ h => h) fun e failed => failed.2 known
  obtain ⟨n, c, run, _, start, accept, _, _, different, diagram⟩ := spec.ok_of_endless rfl
  refine ⟨n, start, accept, ?_, different, diagram⟩
  have simple : n.isSimple = true := by
    refine NFA.isSimple_iff.mpr fun p state goes => ?_
    obtain ⟨notStart, notFinal, _⟩ := NFA.isRedundant_iff.mp goes
    rw [diagram] at state notStart notFinal
    rcases NFA.mem_states_choiceDiagram.mp state with here | there
    · exact notStart here
    · exact notFinal (SortedSet.mem_singleton.mpr there)
  rw [compiled_eq given, NFA.compile, parsed, Building.runFrom_bind, Building.runFrom_check]
  simp only [built, Building.runFrom_bind, run, if_true, NFA.simplify, simple,
    Building.runFrom_check]

/-- A pattern does not make the round trip if what is extracted is read as another language. -/
theorem not_roundTrips_of_language (given : Alphabet.ofString alphabet = .ok A)
    (compiles : compiled pattern alphabet = .ok n) (extracts : extracted n = .ok text)
    (other : ∀ r, Regex.parse text = .ok r → r.language A ≠ n.language) :
    ¬RoundTrips pattern alphabet false := by
  intro trips
  obtain ⟨s, text', m, sources, extracts', _, compiles', accepts⟩ := trips n compiles
  obtain rfl : n = s := Except.ok.inj sources
  obtain rfl : text = text' := Except.ok.inj (extracts.symm.trans extracts')
  obtain ⟨_, _, r, parsed, language⟩ := of_compiled given compiles'
  exact other r parsed (language.symm.trans (NFA.language_eq_of_accepts accepts))

end CommandLine.Command

namespace Regex

variable {A : Alphabet} {c : Char} {r : Regex}

/-- An operator alone is not read as itself. -/
theorem language_ne_of_operator (operator : ¬StandsForItself A c)
    (parsed : parse (String.singleton c) = .ok r) : r.language A ≠ letters (· = c) := by
  have member : c ∈ operators := Classical.byContradiction fun plain => operator (.inl plain)
  simp only [operators, List.mem_cons, List.not_mem_nil, or_false] at member
  rcases member with rfl | rfl | rfl | rfl | rfl | rfl | rfl | rfl | rfl
  · obtain rfl : .any = r := Except.ok.inj parsed
    rw [language_any]
    intro same
    refine operator (.inr ⟨rfl, fun d => ?_⟩)
    have here : [d] ∈ letters (· ∈ A) ↔ [d] ∈ letters (· = '.') := by rw [same]
    simpa using here
  · cases parsed
  · cases parsed
  · cases parsed
  · cases parsed
  · cases parsed
  · cases parsed
  · cases parsed
  · obtain rfl : .union [.concat [], .concat []] = r := Except.ok.inj parsed
    intro same
    have nothing : [] ∈ letters (· = '|') := by
      rw [← same, mem_language]
      exact .union List.mem_cons_self .concatNil
    simp at nothing

/-- The text of a choice that holds a closing bracket cannot be read: what comes later in the order
    of characters opens nothing. -/
theorem parse_error_of_choice {symbols : SortedSet Symbol} (member : Symbol.ofChar ']' ∈ symbols)
    (letters : ∀ a ∈ symbols, ∃ c, a = Symbol.ofChar c) :
    ∃ e, parse (choice symbols).pattern = .error e := by
  obtain ⟨before, after, split⟩ := List.append_of_mem (SortedSet.mem_toList.mpr member)
  have sorted := symbols.sorted
  rw [split, List.pairwise_append, List.pairwise_cons] at sorted
  obtain ⟨_, ⟨later, _⟩, earlier⟩ := sorted
  have text : (choice symbols).pattern = String.ofList ('[' :: (before.flatMap String.toList ++
      ']' :: after.flatMap String.toList) ++ [']']) := by
    rw [pattern, written, split, List.flatMap_append, List.flatMap_cons]
    rfl
  have known {c : Char} {l : List Symbol} (inside : ∀ a ∈ l, a ∈ symbols)
      (listed : c ∈ l.flatMap String.toList) : Symbol.ofChar c ∈ l := by
    obtain ⟨a, member, holds⟩ := List.mem_flatMap.mp listed
    obtain ⟨d, rfl⟩ := letters a (inside a member)
    obtain rfl : c = d := by simpa [Symbol.ofChar] using holds
    exact member
  rw [text]
  apply parse_error_of_bracket
  · intro listed
    have here := known (fun a inside => by rw [← SortedSet.mem_toList, split]; simp [inside]) listed
    have below := Symbol.lt_of_compare_ofChar (earlier _ here _ List.mem_cons_self)
    exact absurd below (by decide)
  · intro c listed
    have here := known (fun a inside => by rw [← SortedSet.mem_toList, split]; simp [inside]) listed
    have above := Symbol.lt_of_compare_ofChar (later _ here)
    simp only [operators, List.mem_cons, List.not_mem_nil, or_false]
    by_contra operator
    rw [not_or, not_not] at operator
    obtain ⟨bar, rfl | rfl | rfl | rfl | rfl | rfl | rfl | rfl | rfl⟩ := operator
    all_goals first | exact bar rfl | exact absurd above (by decide)

/-- What is written for several characters is not read as one of them if one is an operator, and
    either it is the only one or it is the closing bracket. -/
theorem language_ne_of_choice {symbols : SortedSet Symbol} (known : ∀ s ∈ symbols, s ∈ A.symbols)
    (member : Symbol.ofChar c ∈ symbols) (operator : ¬StandsForItself A c)
    (others : c = ']' ∨ ∀ d, Symbol.ofChar d ∈ symbols → d = c)
    (parsed : parse (ofSymbols symbols).pattern = .ok r) :
    r.language A ≠ letters fun d => Symbol.ofChar d ∈ symbols := by
  have characters : ∀ s ∈ symbols, ∃ d, s = Symbol.ofChar d := by
    intro s inside
    obtain ⟨d, _, same⟩ := Alphabet.mem_symbols.mp (known s inside)
    exact ⟨d, same⟩
  rcases ofSymbols_cases (fun s inside => Alphabet.symbol_ne_epsilon (known s inside)) member with
    ⟨single, label⟩ | ⟨several, label⟩
  · have only (d : Char) : Symbol.ofChar d ∈ symbols ↔ d = c := by
      rw [single, SortedSet.mem_singleton]
      exact ⟨Symbol.ofChar_injective, congrArg _⟩
    have text : (lit (Symbol.ofChar c)).pattern = String.singleton c := by
      rw [pattern, written, String.ofList_toList]
      rfl
    rw [label, text] at parsed
    simp only [only]
    exact language_ne_of_operator operator parsed
  · rcases others with rfl | only
    · obtain ⟨e, failure⟩ := parse_error_of_choice member characters
      rw [label, failure] at parsed
      cases parsed
    · refine absurd (SortedSet.ext fun s => ?_) several
      rw [SortedSet.mem_singleton]
      constructor
      · intro inside
        obtain ⟨d, rfl⟩ := characters s inside
        rw [only d inside]
      · rintro rfl
        exact member

end Regex

namespace CommandLine.Command

variable {pattern alphabet : String} {A : Alphabet} {symbols : List Symbol} {r : Regex} {c : Char}

/-- A pattern for one of several characters does not make the round trip if one of them is an
    operator, and either it is the only one or it is the closing bracket. -/
theorem not_roundTrips_of_choice (given : Alphabet.ofString alphabet = .ok A)
    (parsed : Regex.parse pattern = .ok r) (built : NFA.ofRegex A r = NFA.forAnyOf A symbols)
    (known : ∀ s ∈ symbols, s ∈ A.symbols) (member : Symbol.ofChar c ∈ symbols)
    (operator : ¬Regex.StandsForItself A c)
    (others : c = ']' ∨ ∀ d, Symbol.ofChar d ∈ symbols → d = c) :
    ¬RoundTrips pattern alphabet false := by
  obtain ⟨n, start, accept, compiles, different, diagram⟩ :=
    compiled_choice given parsed built known
  have listed (s : Symbol) : s ∈ SortedSet.ofList (Sorting.sort symbols) ↔ s ∈ symbols := by simp
  have sorted : ∀ s ∈ Sorting.sort symbols, s ∈ A.symbols := fun s inside =>
    known s (Sorting.mem_sort.mp inside)
  have extracts := NFA.toPattern_of_choiceDiagram sorted (Sorting.mem_sort.mpr member) different
    diagram
  apply not_roundTrips_of_language given compiles extracts
  intro s parsed
  have other := Regex.language_ne_of_choice (fun s inside => known s ((listed s).mp inside))
    ((listed _).mpr member) operator
    (others.imp_right fun only d inside => only d ((listed _).mp inside)) parsed
  simp only [SortedSet.mem_ofList] at other
  rwa [NFA.language_of_choiceDiagram sorted different diagram]

/-- An operator in brackets does not make the round trip. -/
theorem not_roundTrips_of_bracketed (given : Alphabet.ofString alphabet = .ok A) (letter : c ∈ A)
    (operator : ¬Regex.StandsForItself A c) (other : c ≠ ']') :
    ¬RoundTrips (String.ofList ['[', c, ']']) alphabet false := by
  have text : Regex.IsSequence ['[', c, ']'] [.choice (.ofList [Symbol.ofChar c])] := by
    have plain : ']' ∉ [c] := fun same => other (List.mem_singleton.mp same).symm
    exact .cons (.atom (.choice plain)) .nil
  have only (s : Symbol) : s ∈ (SortedSet.ofList [Symbol.ofChar c]).toList ↔ s = .ofChar c := by
    simp
  apply not_roundTrips_of_choice given (Regex.parse_ok (.of (.one text))) rfl _
    ((only _).mpr rfl) operator
  · exact .inr fun d member => Symbol.ofChar_injective ((only _).mp member)
  · intro s member
    rw [(only s).mp member]
    exact Alphabet.ofChar_mem_symbols.mpr letter

/-- An alphabet with an operator has a pattern that does not make the round trip: the choice of the
    operator alone or, as no choice holds the closing bracket, the pattern of any character. -/
theorem exists_not_roundTrips (given : Alphabet.ofString alphabet = .ok A) (letter : c ∈ A)
    (operator : ¬Regex.StandsForItself A c) : ∃ pattern, ¬RoundTrips pattern alphabet false := by
  by_cases bracket : c = ']'
  · have symbol : Symbol.ofChar c ∈ A.symbols := Alphabet.ofChar_mem_symbols.mpr letter
    have parsed : Regex.parse "." = .ok .any := rfl
    exact ⟨".", not_roundTrips_of_choice given parsed rfl (fun _ known => known) symbol operator
      (.inl bracket)⟩
  · exact ⟨_, not_roundTrips_of_bracketed given letter operator bracket⟩

/-- Over an alphabet every pattern makes the round trip, with and without minimization, exactly if
    the alphabet holds no operators or nothing but the point. -/
theorem roundTrips_iff (alphabet : String) :
    (∀ pattern minimize, RoundTrips pattern alphabet minimize) ↔
      ∀ A, Alphabet.ofString alphabet = .ok A →
        (∀ c ∈ A, c ∉ Regex.operators) ∨ ∀ c, c ∈ A ↔ c = '.' := by
  constructor
  · intro all A given
    by_contra operators
    have operator : ∃ c ∈ A, ¬Regex.StandsForItself A c := by
      by_contra none
      apply operators
      by_cases point : ∀ c, c ∈ A ↔ c = '.'
      · exact .inr point
      · refine .inl fun c letter => ?_
        have stands : Regex.StandsForItself A c := by
          by_contra fails
          exact none ⟨c, letter, fails⟩
        exact stands.resolve_right fun only => point only.2
    obtain ⟨c, letter, operator⟩ := operator
    obtain ⟨pattern, fails⟩ := exists_not_roundTrips given letter operator
    exact fails (all pattern false)
  · intro plain pattern minimize n compiles
    cases given : Alphabet.ofString alphabet with
    | error e =>
        rw [compiled, given] at compiles
        cases compiles
    | ok A =>
        refine roundTrips_of_readable given (fun n s compiles sources e edge => ?_) n compiles
        obtain ⟨separate, same, _⟩ := of_compiled given compiles
        obtain ⟨s', sources', alphabet', _⟩ := source_ok separate minimize
        obtain rfl : s = s' := Except.ok.inj (sources.symm.trans sources')
        rcases s.label_mem e edge with waits | symbol
        · exact .inl waits
        · rw [alphabet', same] at symbol
          obtain ⟨c, letter, label⟩ := Alphabet.mem_symbols.mp symbol
          refine .inr ⟨c, ?_, label⟩
          rcases plain A given with none | point
          · exact .inl (none c letter)
          · exact .inr ⟨(point c).mp letter, point⟩

/-- The asterisk in brackets is extracted without its brackets, and there is nothing to repeat. -/
theorem not_roundTrips_asterisk : ¬RoundTrips "[*]" "*a" false := by
  let A : Alphabet := ⟨.ofList ['*', 'a'], by decide, by decide⟩
  have given : Alphabet.ofString "*a" = .ok A := rfl
  have operator : ¬Regex.StandsForItself A '*' := by
    rintro (plain | point)
    · exact plain (by decide)
    · exact absurd point.1 (by decide)
  exact not_roundTrips_of_bracketed given (by decide) operator (by decide)

end CommandLine.Command

end Automata
