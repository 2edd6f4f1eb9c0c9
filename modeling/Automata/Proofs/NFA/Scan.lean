import Automata.Proofs.NFA.Language

/-! # Scanning for match ends

A scan reads on with one set of states and ends early when the set is empty. All the same it lists
every position at which a recognized part ends, so that automata of one language over one alphabet
list the same positions.
-/

namespace Automata.NFA

variable {m n : NFA} {S : SortedSet State} {c : Char} {w : List Char} {i start count : Nat}

theorem advance_empty : n.advance ∅ c = ∅ := by
  apply SortedSet.ext
  intro q
  constructor
  · intro member
    obtain ⟨p, moved, _⟩ := mem_epsilonClosure.mp member
    obtain ⟨r, active, _⟩ := mem_move.mp moved
    exact absurd active (SortedSet.not_mem_empty r)
  · intro member
    exact absurd member (SortedSet.not_mem_empty q)

/-- An empty set of states never becomes accepting again. -/
theorem isAccepting_advanceAll_empty : n.isAccepting (n.advanceAll ∅ w) = false := by
  induction w with
  | nil => rfl
  | cons c w ih =>
      have next : n.advanceAll ∅ (c :: w) = n.advanceAll (n.advance ∅ c) w := rfl
      rw [next, advance_empty, ih]

theorem charAt_of_lt (inside : i < w.length) : charAt w i = .ok w[i] := by
  have front : ¬ (i : Int) < 0 := by omega
  simp only [charAt, if_neg front, Int.toNat_natCast, List.getElem?_eq_getElem inside]

/-- The positions, after as many of the next characters as given, at which a part that begins at
    position `i` makes the set accepting. -/
def endsWithin (n : NFA) (w : List Char) (S : SortedSet State) (i count : Nat) : List Nat :=
  (List.range' (i + 1) count).filter fun e => n.isAccepting (n.advanceAll S (w.extract i e))

theorem extract_of_lt {e : Nat} (inside : i < w.length) (later : i < e) :
    w.extract i e = w[i] :: w.extract (i + 1) e := by
  have length : e - i = (e - (i + 1)) + 1 := by omega
  rw [List.extract_eq_take_drop, List.drop_eq_getElem_cons inside, length, List.take_succ_cons]

theorem endsWithin_succ (inside : i < w.length) : n.endsWithin w S i (count + 1) =
    if n.isAccepting (n.advance S w[i]) then
      (i + 1) :: n.endsWithin w (n.advance S w[i]) (i + 1) count
    else n.endsWithin w (n.advance S w[i]) (i + 1) count := by
  have later : ∀ e ∈ List.range' (i + 1 + 1) count,
      n.isAccepting (n.advanceAll S (w.extract i e)) =
        n.isAccepting (n.advanceAll (n.advance S w[i]) (w.extract (i + 1) e)) := by
    intro e member
    rw [extract_of_lt inside (by have := (List.mem_range'_1.mp member).1; omega)]
    rfl
  have first : n.advanceAll S (w.extract i (i + 1)) = n.advance S w[i] := by
    rw [extract_of_lt inside (Nat.lt_succ_self i)]
    simp [advanceAll]
  rw [endsWithin, List.range'_succ, List.filter_cons, first, List.filter_congr later]
  rfl

theorem endsWithin_empty : n.endsWithin w ∅ i count = [] := by
  rw [endsWithin, List.filter_eq_nil_iff]
  intro e _
  rw [isAccepting_advanceAll_empty]
  exact Bool.false_ne_true

/-- A scan finds all the ends, although it may stop early. -/
theorem scan_eq (inside : i + count ≤ w.length) :
    n.scan w count i S = .ok ((n.endsWithin w S i count).map Nat.cast) := by
  induction count generalizing i S with
  | zero => rfl
  | succ count ih =>
      have here : i < w.length := by omega
      have rest := ih (i := i + 1) (S := n.advance S w[i]) (by omega)
      rw [Int.natCast_succ] at rest
      rw [scan, charAt_of_lt here, endsWithin_succ here]
      simp only [bind, Except.bind, pure, Except.pure, rest]
      by_cases nothing : (n.advance S w[i]).isEmpty = true
      · have empty : n.advance S w[i] = ∅ := SortedSet.ext fun q =>
          iff_of_false (SortedSet.isEmpty_iff.mp nothing q) (SortedSet.not_mem_empty q)
        rw [if_pos nothing, empty, endsWithin_empty, if_neg]
        · rfl
        · exact Bool.false_ne_true
      · rw [if_neg nothing]
        split <;> rfl

theorem recognizes_congr (letters : ∀ c ∈ w, c ≠ 'ε') (language : m.language = n.language) :
    m.recognizes w = n.recognizes w := by
  rw [Bool.eq_iff_iff, recognizes_iff letters, recognizes_iff letters, ← mem_language,
    ← mem_language, language]

/-- The positions at which the recognized parts end that begin at a position, the empty part left
    out. -/
def matchEnds (n : NFA) (w : List Char) (start : Nat) : List Nat :=
  n.endsWithin w n.startSet start (w.length - start)

theorem matchEnds_congr (covered : ∀ c ∈ w.drop start, c ≠ 'ε')
    (language : m.language = n.language) : m.matchEnds w start = n.matchEnds w start := by
  refine List.filter_congr fun e _ => ?_
  have letters : ∀ c ∈ w.extract start e, c ≠ 'ε' := fun c member =>
    covered c (List.mem_of_mem_take member)
  exact recognizes_congr letters language

variable {word : String}

theorem dropFrom_natCast : dropFrom w start = w.drop start := by
  have front : ¬ (start : Int) < 0 := by omega
  rw [dropFrom, if_neg front, Int.toNat_natCast]

theorem acceptableSubstrings_eq (covered : ∀ c ∈ word.toList.drop start, c ∈ n.alphabet) :
    n.acceptableSubstrings word start = .ok ((n.matchEnds word.toList start).map Nat.cast) := by
  have check : n.alphabet.check (String.ofList (word.toList.drop start)) = .ok () :=
    Alphabet.check_ok (by simpa using covered)
  have count : ((word.toList.length : Int) - start).toNat = word.toList.length - start := by omega
  simp only [acceptableSubstrings, dropFrom_natCast, check, count]
  rcases Nat.le_total start word.toList.length with inside | beyond
  · exact scan_eq (by omega)
  · rw [matchEnds, Nat.sub_eq_zero_of_le beyond]
    rfl

/-- Automata of one language over one alphabet list the same positions, down to their errors. -/
theorem acceptableSubstrings_congr (alphabet : m.alphabet = n.alphabet)
    (language : m.language = n.language) :
    m.acceptableSubstrings word start = n.acceptableSubstrings word start := by
  by_cases covered : ∀ c ∈ word.toList.drop start, c ∈ n.alphabet
  · have letters : ∀ c ∈ word.toList.drop start, c ≠ 'ε' := fun c member =>
      Alphabet.ne_epsilon (covered c member)
    rw [acceptableSubstrings_eq covered, acceptableSubstrings_eq (alphabet ▸ covered),
      matchEnds_congr letters language]
  · have foreign : ¬ ∀ c ∈ (String.ofList (word.toList.drop start)).toList, c ∈ n.alphabet := by
      rwa [String.toList_ofList]
    obtain ⟨e, failure, _⟩ := Alphabet.check_error foreign
    simp only [acceptableSubstrings, dropFrom_natCast, alphabet, failure]
    rfl

/-! ### Listing what is accepted -/

theorem acceptableSubstrings_error (foreign : ¬ ∀ c ∈ word.toList.drop start, c ∈ n.alphabet) :
    ∃ e, n.acceptableSubstrings word start = .error e ∧ e.kind = .alphabet := by
  have foreign : ¬ ∀ c ∈ (String.ofList (word.toList.drop start)).toList, c ∈ n.alphabet := by
    simpa using foreign
  obtain ⟨e, failure, kind⟩ := Alphabet.check_error foreign
  refine ⟨e, ?_, kind⟩
  simp [acceptableSubstrings, dropFrom_natCast, failure, bind, Except.bind]

theorem mem_matchEnds {e : Nat} : e ∈ n.matchEnds w start ↔
    start < e ∧ e ≤ w.length ∧ n.recognizes (w.extract start e) = true := by
  simp only [matchEnds, endsWithin, List.mem_filter, List.mem_range'_1, recognizes]
  constructor
  · rintro ⟨range, recognized⟩
    exact ⟨by omega, by omega, recognized⟩
  · rintro ⟨later, inside, recognized⟩
    exact ⟨by omega, recognized⟩

theorem pairwise_matchEnds : (n.matchEnds w start).Pairwise (· < ·) :=
  (List.pairwise_lt_range' 1 Nat.one_pos).filter _

/-- The parts that begin at a position are over the alphabet if all that follows is. -/
theorem accepts_extract (covered : ∀ c ∈ word.toList.drop start, c ∈ n.alphabet) (e : Nat) :
    n.accepts (String.ofList (word.toList.extract start e)) =
      .ok (n.recognizes (word.toList.extract start e)) := by
  have inside : ∀ c ∈ (String.ofList (word.toList.extract start e)).toList, c ∈ n.alphabet := by
    intro c member
    rw [String.toList_ofList, List.extract_eq_take_drop] at member
    exact covered c (List.mem_of_mem_take member)
  simpa using accepts_eq inside

/-- A foreign character at or after the position where the scan begins is an alphabet error, and
    nothing else is an error: the scan then lists, in ascending order, the end of every nonempty
    part from there on that is accepted. A position beyond the end of the word has no such part. -/
theorem acceptableSubstrings_lists_accepted (n : NFA) (word : String) (start : Nat) :
    ((∃ e, n.acceptableSubstrings word start = .error e ∧ e.kind = .alphabet) ↔
      ∃ c ∈ word.toList.drop start, c ∉ n.alphabet) ∧
    ((∀ c ∈ word.toList.drop start, c ∈ n.alphabet) →
      ∃ ends : List Nat, n.acceptableSubstrings word start = .ok (ends.map Nat.cast) ∧
        ends.Pairwise (· < ·) ∧
        ∀ e, e ∈ ends ↔ start < e ∧ e ≤ word.length ∧
          n.accepts (String.ofList (word.toList.extract start e)) = .ok true) := by
  by_cases covered : ∀ c ∈ word.toList.drop start, c ∈ n.alphabet
  · refine ⟨?_, fun _ => ⟨_, acceptableSubstrings_eq covered, pairwise_matchEnds, fun e => ?_⟩⟩
    · simpa [acceptableSubstrings_eq covered] using covered
    · simp [mem_matchEnds, accepts_extract covered, String.length_toList]
  · refine ⟨iff_of_true (acceptableSubstrings_error covered) ?_, fun known => absurd known covered⟩
    simpa using covered

/-- After `ab` no state is left, so the scan ends before the last letter. -/
theorem acceptableSubstrings_lists_accepted_early :
    let n : NFA := {
      states := .ofList [⟨"p"⟩, ⟨"q"⟩, ⟨"r"⟩]
      alphabet := ⟨.ofList ['a', 'b'], by decide, by decide⟩
      edges := .ofList [⟨⟨"p"⟩, "a", ⟨"q"⟩⟩, ⟨⟨"q"⟩, "b", ⟨"r"⟩⟩]
      start := ⟨"p"⟩
      accepting := .ofList [⟨"q"⟩, ⟨"r"⟩]
      closed := ⟨by decide +kernel, by decide +kernel, by decide +kernel, by decide +kernel⟩
      label_mem := by decide +kernel }
    (∀ c ∈ "aabb".toList.drop 1, c ∈ n.alphabet) ∧
      n.acceptableSubstrings "aabb" (1 : Nat) = .ok [2, 3] ∧
      n.accepts "ab" = .ok true ∧ n.accepts "abb" ≠ .ok true := by
  intro n
  have letters : ("aabb".toList.drop 1).all (· ∈ n.alphabet) = true := by decide +kernel
  have covered : ∀ c ∈ "aabb".toList.drop 1, c ∈ n.alphabet := fun c member =>
    of_decide_eq_true (List.all_eq_true.mp letters c member)
  have scanned : n.acceptableSubstrings "aabb" (1 : Nat) = .ok [2, 3] := by decide +kernel
  obtain ⟨ends, lists, _, listed⟩ := (acceptableSubstrings_lists_accepted n "aabb" 1).2 covered
  have positions : ends = [2, 3] := by
    have same : ends.map Nat.cast = [2, 3].map (Nat.cast (R := Int)) :=
      Except.ok.inj (lists.symm.trans scanned)
    exact List.map_injective_iff.mpr (fun _ _ => Int.ofNat.inj) same
  subst positions
  exact ⟨covered, scanned, ((listed 3).mp (by decide)).2.2,
    fun accepted => absurd ((listed 4).mpr ⟨by decide, by decide, accepted⟩) (by decide)⟩

end Automata.NFA
