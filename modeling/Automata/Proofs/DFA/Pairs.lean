import Automata.Proofs.DFA.Minimize
import Automata.Proofs.DFA.Product
import Mathlib.Data.List.Nodup
import Mathlib.Data.List.ProdSigma

/-! # The language of a product

As long as different pairs of states have different names, a product keeps the two states that its
operands would reach, and it decides a word as they do together. Names in which no blank follows a
comma tell all pairs apart, since the first such place is the one between the two members.
-/

namespace Automata.DFA

variable {d e m : DFA} {p q p' q' : State} {w : List Char} {accept : Bool → Bool → Bool}

/-! ### Names of pairs -/

/-- No two pairs of states have the same name. -/
def SeparatePairs (d e : DFA) : Prop :=
  ∀ k ∈ statePairs d e, ∀ l ∈ statePairs d e, pairName k.1 k.2 = pairName l.1 l.2 → k = l

/-- A blank follows a comma somewhere in the name of a state. -/
def HasSeparator (p : State) : Prop := [',', ' '] <:+: p.name.toList

instance (p : State) : Decidable (HasSeparator p) :=
  inferInstanceAs (Decidable ([',', ' '] <:+: p.name.toList))

theorem toList_pairName (p q : State) : (pairName p q).name.toList =
    '(' :: (p.name.toList ++ ',' :: ' ' :: (q.name.toList ++ [')'])) := by
  have text : (pairName p q).name = "(" ++ p.name ++ ", " ++ q.name ++ ")" := rfl
  simp [text]

/-- What a text has beyond the one before a separator is nothing or holds a separator itself; a
    comma at its end does not make one. -/
private theorem eq_nil_of_separated {t u v : List Char} (plain : ¬ [',', ' '] <:+: t)
    (same : ',' :: ' ' :: u = t ++ ',' :: ' ' :: v) : t = [] := by
  match t with
  | [] => rfl
  | [_] => simp at same
  | _ :: _ :: t =>
      obtain ⟨rfl, rfl, -⟩ : ',' = _ ∧ ' ' = _ ∧ u = _ := by simpa using same
      exact absurd ⟨[], t, rfl⟩ plain

/-- The first separator ends the first of two texts that are joined by one. -/
private theorem eq_of_separated {s t u v : List Char} (plain : ¬ [',', ' '] <:+: s)
    (plain' : ¬ [',', ' '] <:+: t) (same : s ++ ',' :: ' ' :: u = t ++ ',' :: ' ' :: v) :
    s = t := by
  rcases List.append_eq_append_iff.mp same with ⟨r, rfl, rest⟩ | ⟨r, rfl, rest⟩
  · have nothing := eq_nil_of_separated
      (fun inside => plain' (inside.trans (List.suffix_append s r).isInfix)) rest
    rw [nothing, List.append_nil]
  · have nothing := eq_nil_of_separated
      (fun inside => plain (inside.trans (List.suffix_append t r).isInfix)) rest
    rw [nothing, List.append_nil]

theorem pairName_injective (plain : ¬ HasSeparator p) (plain' : ¬ HasSeparator p')
    (same : pairName p q = pairName p' q') : p = p' ∧ q = q' := by
  have texts := congrArg (fun r : State => r.name.toList) same
  simp only [toList_pairName, List.cons.injEq, true_and] at texts
  have first := eq_of_separated plain plain' texts
  rw [first] at texts
  have second : q.name.toList = q'.name.toList := by simpa using texts
  exact ⟨congrArg State.mk (String.toList_inj.mp first),
    congrArg State.mk (String.toList_inj.mp second)⟩

theorem separatePairs_of_names (plain : ∀ p ∈ d.states, ¬ HasSeparator p) :
    SeparatePairs d e := by
  intro k hk l hl same
  obtain ⟨first, second⟩ := pairName_injective (plain k.1 (mem_statePairs.mp hk).1)
    (plain l.1 (mem_statePairs.mp hl).1) same
  exact Prod.ext first second

theorem SeparatePairs.size_eq (separate : SeparatePairs d e)
    (diagram : m.toMoveDiagram = productDiagram accept d e) :
    m.states.size = d.states.size * e.states.size := by
  let names := (statePairs d e).map fun k => pairName k.1 k.2
  have nodup : names.Nodup :=
    (d.states.nodup_toList.product e.states.nodup_toList).map_on separate
  have states : ∀ p, p ∈ m.states ↔ p ∈ names := by
    intro p
    rw [diagram]
    exact SortedSet.mem_ofList
  calc m.states.size = names.length := SortedSet.size_eq_length nodup states
    _ = (statePairs d e).length := List.length_map ..
    _ = d.states.size * e.states.size := List.length_product ..

/-! ### Runs side by side -/

/-- The pairs of states of two automata under their names. -/
def pairNaming (accept : Bool → Bool → Bool) (d e : DFA) : Naming (State × State) where
  elements := statePairs d e
  name k := pairName k.1 k.2
  alphabet := d.alphabet
  step k c := (d.after k.1 c, e.after k.2 c)
  start := (d.start, e.start)
  final k := accept (decide (k.1 ∈ d.accepting)) (decide (k.2 ∈ e.accepting))

theorem foldl_step_pairNaming (k : State × State) :
    w.foldl (pairNaming accept d e).step k = (w.foldl d.after k.1, w.foldl e.after k.2) := by
  induction w generalizing k with
  | nil => rfl
  | cons c w ih => exact ih (d.after k.1 c, e.after k.2 c)

theorem sealed_states (d : DFA) : d.Sealed d.states where
  states _ inside := inside
  next_mem _ _ _ _ move := d.closed.target_mem _ (MoveTable.mem_edgeSet.mpr move)

section

variable (alphabet : e.alphabet = d.alphabet)

include alphabet

theorem SeparatePairs.sound (separate : SeparatePairs d e) : (pairNaming accept d e).Sound where
  start_mem := mem_statePairs.mpr ⟨d.closed.start_mem, e.closed.start_mem⟩
  step_mem k listed c letter := by
    obtain ⟨left, right⟩ := mem_statePairs.mp listed
    exact mem_statePairs.mpr ⟨(d.sealed_states.after left letter).1,
      (e.sealed_states.after right (alphabet ▸ letter)).1⟩
  step_eq k hk l hl same c _ := by rw [separate k hk l hl same]
  final_eq k hk l hl same := by rw [separate k hk l hl same]

theorem describes_pairs : (pairNaming accept d e).Describes (productDiagram accept d e) where
  states p := by
    simp only [productDiagram, SortedSet.mem_ofList, List.mem_map, pairNaming, eq_comm]
  alphabet := rfl
  moves := by
    refine ⟨_, rfl, fun p a q => ?_⟩
    rw [List.mem_flatMap]
    refine exists_congr fun k => and_congr_right fun listed => ?_
    obtain ⟨left, right⟩ := mem_statePairs.mp listed
    rw [mem_pairMoves]
    refine exists_congr fun c => and_congr_right fun letter => ?_
    have first := (d.sealed_states.after left letter).2
    have second := (e.sealed_states.after right (alphabet ▸ letter)).2
    simp only [first, second, Option.some.injEq, exists_and_left, exists_eq_left', Prod.mk.injEq,
      and_assoc]
    rfl
  start := rfl
  accepting p := by
    simp only [productDiagram, SortedSet.mem_ofList, List.mem_map, List.mem_filter, pairNaming,
      and_assoc, eq_comm]

/-- A product recognizes what its two operands decide together. -/
theorem SeparatePairs.recognizes_eq (separate : SeparatePairs d e)
    (diagram : m.toMoveDiagram = productDiagram accept d e) (covered : ∀ c ∈ w, c ∈ d.alphabet) :
    m.recognizes w = accept (d.recognizes w) (e.recognizes w) := by
  have sound : (pairNaming accept d e).Sound := separate.sound alphabet
  have start : m.start = (pairNaming accept d e).name (pairNaming accept d e).start := by
    rw [diagram]
    rfl
  have left : d.recognizes w = decide (w.foldl d.after d.start ∈ d.accepting) :=
    recognizesFrom_eq_after d.sealed_states covered d.closed.start_mem
  have right : e.recognizes w = decide (w.foldl e.after e.start ∈ e.accepting) :=
    recognizesFrom_eq_after e.sealed_states (alphabet ▸ covered) e.closed.start_mem
  rw [recognizes, start, (describes_pairs alphabet).recognizesFrom_name sound diagram covered
    sound.start_mem, foldl_step_pairNaming, left, right]
  rfl

/-- A product of automata over one alphabet without common states answers every word as its operands
    decide together, and it has a state for every pair. -/
theorem SeparatePairs.product_ok (accept : Bool → Bool → Bool) (separate : SeparatePairs d e)
    (apart : ∀ p ∈ d.states, p ∉ e.states) :
    ∃ m, product accept d e = .ok m ∧ m.states.size = d.states.size * e.states.size ∧
      ∀ word : String, (∀ c ∈ word.toList, c ∈ d.alphabet) →
        m.accepts word = .ok (accept (d.recognizes word.toList) (e.recognizes word.toList)) := by
  have alphabets : ∀ D ∈ [d.diagram, e.diagram], D.alphabet = d.alphabet :=
    List.forall_mem_cons.mpr ⟨rfl, List.forall_mem_singleton.mpr alphabet⟩
  have checked : StateDiagram.checkCompatible [d.diagram, e.diagram] = .ok () :=
    NFA.check_diagrams_ok alphabets (List.pairwise_pair.mpr apart)
  obtain ⟨m, built, diagram⟩ := DFA.product_ok accept checked
  refine ⟨m, built, separate.size_eq diagram, fun word covered => ?_⟩
  have own : m.alphabet = d.alphabet := by rw [diagram]; rfl
  rw [accepts_eq (own ▸ covered), separate.recognizes_eq alphabet diagram covered]

end

/-- Names in which no blank follows a comma separate all pairs. Where pairs are separated, the union
    of two automata accepts what one of them accepts and their intersection what both accept, and
    each has a state for every pair. -/
theorem union_intersection_accept (d e : DFA) :
    ((∀ p ∈ d.states, ¬ HasSeparator p) → SeparatePairs d e) ∧
    (e.alphabet = d.alphabet → (∀ p ∈ d.states, p ∉ e.states) → SeparatePairs d e →
      ∃ u i, d.union e = .ok u ∧ d.intersection e = .ok i ∧
        u.states.size = d.states.size * e.states.size ∧
        i.states.size = d.states.size * e.states.size ∧
        ∀ word : String, (∀ c ∈ word.toList, c ∈ d.alphabet) →
          ∃ b c, d.accepts word = .ok b ∧ e.accepts word = .ok c ∧
            u.accepts word = .ok (b || c) ∧ i.accepts word = .ok (b && c)) := by
  refine ⟨separatePairs_of_names, fun alphabet apart separate => ?_⟩
  obtain ⟨u, united, sizeUnion, either⟩ := separate.product_ok alphabet (· || ·) apart
  obtain ⟨i, met, sizeMeet, both⟩ := separate.product_ok alphabet (· && ·) apart
  refine ⟨u, i, united, met, sizeUnion, sizeMeet, fun word covered => ?_⟩
  exact ⟨_, _, accepts_eq covered, accepts_eq (alphabet ▸ covered), either word covered,
    both word covered⟩

/-- Names that end in a comma and names that begin with a blank: an even number of characters and at
    least one, decided together. -/
theorem union_intersection_accept_edges :
    let A : Alphabet := ⟨.ofList ['a'], by decide, by decide⟩
    let p : State := ⟨"p,"⟩
    let q : State := ⟨"p"⟩
    let r : State := ⟨" r"⟩
    let s : State := ⟨"r"⟩
    let d : DFA := ⟨⟨.ofList [p, q], A, .ofList [((p, "a"), q), ((q, "a"), p)], p, .ofList [p]⟩,
      ⟨by decide +kernel, by decide +kernel, by decide +kernel, by decide +kernel⟩,
      by decide +kernel, by decide +kernel⟩
    let e : DFA := ⟨⟨.ofList [r, s], A, .ofList [((r, "a"), s), ((s, "a"), s)], r, .ofList [s]⟩,
      ⟨by decide +kernel, by decide +kernel, by decide +kernel, by decide +kernel⟩,
      by decide +kernel, by decide +kernel⟩
    (∀ p ∈ d.states, ¬ HasSeparator p) ∧ e.alphabet = d.alphabet ∧
      (∀ p ∈ d.states, p ∉ e.states) ∧ SeparatePairs d e ∧
      ∃ u i, d.union e = .ok u ∧ d.intersection e = .ok i ∧ u.states.size = 4 ∧
        u.accepts "a" = .ok true ∧ i.accepts "a" = .ok false ∧ i.accepts "aa" = .ok true := by
  intro A p q r s d e
  have plain : ∀ p ∈ d.states.toList, ¬ HasSeparator p := by decide +kernel
  have apart : ∀ p ∈ d.states.toList, p ∉ e.states := by decide +kernel
  obtain ⟨separates, products⟩ := union_intersection_accept d e
  obtain ⟨u, i, united, met, size, _, answers⟩ := products rfl apart (separates plain)
  have letter : 'a' ∈ d.alphabet := by decide +kernel
  obtain ⟨b, c, left, right, either, both⟩ := answers "a" (by simp [letter])
  obtain ⟨b', c', left', right', _, both'⟩ := answers "aa" (by simp [letter])
  have once : d.accepts "a" = .ok false ∧ e.accepts "a" = .ok true := by decide +kernel
  have twice : d.accepts "aa" = .ok true ∧ e.accepts "aa" = .ok true := by decide +kernel
  cases left.symm.trans once.1
  cases right.symm.trans once.2
  cases left'.symm.trans twice.1
  cases right'.symm.trans twice.2
  have four : d.states.size * e.states.size = 4 := by decide +kernel
  exact ⟨plain, rfl, apart, separates plain, u, i, united, met, size.trans four, either, both,
    both'⟩

end Automata.DFA
