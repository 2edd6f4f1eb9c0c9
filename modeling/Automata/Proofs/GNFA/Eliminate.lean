import Automata.GNFA.Eliminate
import Automata.Proofs.GNFA.OfNFA
import Automata.Proofs.NFA.StateCount

/-! # State elimination keeps the language

Ripping an interior state always succeeds, and every pair of the other states then carries what its
label and the runs through the state matched. When no interior state is left, the label from the
start to the accepting state matches what the automaton accepts.
-/

open scoped Computability

namespace Automata

namespace GNFA

variable {g : GNFA} {p q s t : State}

theorem mem_interior : p ∈ g.interior ↔ p ∈ g.states ∧ p ≠ g.start ∧ p ≠ g.accept := by
  simp [interior]

theorem mem_bypassed : (s, t) ∈ g.bypassed p ↔
    s ≠ p ∧ t ≠ p ∧ g.labels.label s p ≠ .null ∧ g.labels.label p t ≠ .null := by
  have others : ∀ q, q ∈ (g.states.diff (.singleton p)).toList ↔ q ∈ g.states ∧ q ≠ p := by simp
  simp only [bypassed, List.mem_flatMap, List.mem_map, List.mem_filter, others,
    Bool.not_eq_true', ← Bool.not_eq_true, Regex.isNull_iff, Prod.mk.injEq]
  constructor
  · intro h
    obtain ⟨x, ⟨⟨_, source⟩, enters⟩, y, ⟨⟨_, target⟩, leaves⟩, rfl, rfl⟩ := h
    exact ⟨source, target, enters, leaves⟩
  · intro h
    obtain ⟨source, target, enters, leaves⟩ := h
    exact ⟨s, ⟨⟨(label_inside enters).1, source⟩, enters⟩, t,
      ⟨⟨(label_inside leaves).2.1, target⟩, leaves⟩, rfl, rfl⟩

/-- The diagram that is left when a state is ripped. -/
def rippedDiagram (g : GNFA) (p : State) : PairDiagram where
  states := g.states.diff (.singleton p)
  alphabet := g.alphabet
  labels := g.labels.without p ((g.bypassed p).map fun k => (k, g.bypass p k))
  start := g.start
  accept := g.accept

theorem label_rippedDiagram : (g.rippedDiagram p).labels.label s t =
    if (s, t) ∈ g.bypassed p then g.bypass p (s, t)
    else if s ≠ p ∧ t ≠ p then g.labels.label s t else .null :=
  PairLabels.label_without

theorem closed_rippedDiagram (interior : p ∈ g.interior) : (g.rippedDiagram p).Closed := by
  obtain ⟨_, notStart, notAccept⟩ := mem_interior.mp interior
  have states : ∀ q, q ∈ (g.rippedDiagram p).states ↔ q ∈ g.states ∧ q ≠ p := by
    simp [rippedDiagram]
  apply PairDiagram.closed_of_labels
  · exact (states _).mpr ⟨g.closed.start_mem, notStart.symm⟩
  · exact (states _).mpr ⟨g.closed.accept_mem, notAccept.symm⟩
  · exact g.closed.start_ne_accept
  · exact congrArg (SortedSet.diff · (.singleton p)) g.closed.labels_states
  · intro s t label
    rw [label_rippedDiagram] at label
    by_cases through : (s, t) ∈ g.bypassed p
    · obtain ⟨source, target, enters, leaves⟩ := mem_bypassed.mp through
      have enters := label_inside enters
      have leaves := label_inside leaves
      exact ⟨(states s).mpr ⟨enters.1, source⟩, (states t).mpr ⟨leaves.2.1, target⟩,
        leaves.2.2.1, enters.2.2.2⟩
    · rw [if_neg through] at label
      by_cases others : s ≠ p ∧ t ≠ p
      · rw [if_pos others] at label
        have inside := label_inside label
        exact ⟨(states s).mpr ⟨inside.1, others.1⟩, (states t).mpr ⟨inside.2.1, others.2⟩,
          inside.2.2⟩
      · rw [if_neg others] at label
        exact absurd rfl label

/-- The automaton that is left when an interior state is ripped. -/
def ripped (g : GNFA) (p : State) (interior : p ∈ g.interior) : GNFA :=
  ⟨g.rippedDiagram p, closed_rippedDiagram interior⟩

theorem checkInterior_ok (interior : p ∈ g.interior) : g.checkInterior p = .ok () := by
  obtain ⟨member, notStart, notAccept⟩ := mem_interior.mp interior
  have free : ¬ (p = g.start ∨ p = g.accept) := by simp [notStart, notAccept]
  rw [checkInterior, if_neg (not_not.mpr member), if_neg free]

theorem rip_ok (interior : p ∈ g.interior) : g.rip p = .ok (g.ripped p interior) := by
  rw [rip, checkInterior_ok interior]
  exact ofDiagram_ok (closed_rippedDiagram interior)

variable {interior : p ∈ g.interior}

theorem mem_states_ripped : q ∈ (g.ripped p interior).states ↔ q ∈ g.states ∧ q ≠ p := by
  simp [ripped, rippedDiagram]

theorem mem_interior_ripped : q ∈ (g.ripped p interior).interior ↔ q ∈ g.interior ∧ q ≠ p := by
  rw [mem_interior, mem_interior, mem_states_ripped]
  show _ ∧ q ≠ g.start ∧ q ≠ g.accept ↔ _
  tauto

theorem step_ripped (source : s ≠ p) (target : t ≠ p) : (g.ripped p interior).step s t =
    g.step s t + g.step s p * ((g.step p p)∗ * g.step p t) := by
  have label : (g.ripped p interior).labels.label s t =
      if (s, t) ∈ g.bypassed p then g.bypass p (s, t) else g.labels.label s t := by
    have others : s ≠ p ∧ t ≠ p := ⟨source, target⟩
    exact label_rippedDiagram.trans (by rw [if_pos others])
  have alphabet : (g.ripped p interior).alphabet = g.alphabet := rfl
  rw [step, label, alphabet]
  by_cases through : (s, t) ∈ g.bypassed p
  · rw [if_pos through]
    ext w
    rw [bypass, Regex.mem_language, Regex.matches_unionOf, Language.mem_add]
    simp only [List.mem_cons, List.not_mem_nil, or_false, exists_eq_or_imp, exists_eq_left,
      ← Regex.mem_language, Regex.language_concatOf, List.map_cons, List.map_nil, List.prod_cons,
      List.prod_nil, mul_one, Regex.language_starOf, step]
  · rw [if_neg through]
    by_cases enters : g.labels.label s p = .null
    · rw [step_eq_zero enters, zero_mul, add_zero, step]
    · have stays : g.labels.label p t = .null := by
        apply Classical.byContradiction
        intro leaves
        exact through (mem_bypassed.mpr ⟨source, target, enters, leaves⟩)
      rw [step_eq_zero stays, mul_zero, mul_zero, add_zero, step]

theorem step_ripped_eq_zero (gone : s = p ∨ t = p) : (g.ripped p interior).step s t = 0 := by
  apply step_eq_zero
  have through : (s, t) ∉ g.bypassed p := by
    intro through
    obtain ⟨source, target, _⟩ := mem_bypassed.mp through
    exact gone.elim source target
  have others : ¬ (s ≠ p ∧ t ≠ p) := by tauto
  exact label_rippedDiagram.trans (by rw [if_neg through, if_neg others])

theorem wordsFrom_ripped_le : (g.ripped p interior).wordsFrom q ≤ g.wordsFrom q := by
  apply wordsFrom_le
  · exact nil_mem_wordsFrom
  · intro s t
    by_cases gone : s = p ∨ t = p
    · rw [step_ripped_eq_zero gone, zero_mul]
      exact bot_le
    · obtain ⟨source, target⟩ := not_or.mp gone
      rw [step_ripped source target, add_mul]
      -- a run through the state goes in, around any number of times, and out
      have around : (g.step p p)∗ * (g.step p t * g.wordsFrom t) ≤ g.wordsFrom p :=
        kstar_mul_le step_mul_wordsFrom_le step_mul_wordsFrom_le
      have through : g.step s p * ((g.step p p)∗ * g.step p t) * g.wordsFrom t ≤ g.wordsFrom s := by
        calc g.step s p * ((g.step p p)∗ * g.step p t) * g.wordsFrom t
            = g.step s p * ((g.step p p)∗ * (g.step p t * g.wordsFrom t)) := by
              simp only [mul_assoc]
          _ ≤ g.step s p * g.wordsFrom p := mul_le_mul_right around _
          _ ≤ g.wordsFrom s := step_mul_wordsFrom_le
      exact add_le step_mul_wordsFrom_le through

/-- The words that lead from the ripped state over a step to another one and on from there. -/
def wordsBeyond (g : GNFA) (p : State) (interior : p ∈ g.interior) : Language Char :=
  {w | ∃ t, t ≠ p ∧ w ∈ g.step p t * (g.ripped p interior).wordsFrom t}

theorem step_mul_wordsBeyond_le (source : s ≠ p) :
    g.step s p * ((g.step p p)∗ * g.wordsBeyond p interior) ≤
      (g.ripped p interior).wordsFrom s := by
  intro w h
  rw [← mul_assoc] at h
  obtain ⟨u, first, v, ⟨t, target, rest⟩, rfl⟩ := Language.mem_mul.mp h
  obtain ⟨x, out, y, after, rfl⟩ := Language.mem_mul.mp rest
  have step : u ++ x ∈ (g.ripped p interior).step s t := by
    rw [step_ripped source target, Language.mem_add, ← mul_assoc]
    exact .inr (Language.append_mem_mul first out)
  rw [← List.append_assoc]
  exact step_mul_wordsFrom_le (Language.append_mem_mul step after)

theorem language_ripped : (g.ripped p interior).language = g.language := by
  obtain ⟨_, notStart, notAccept⟩ := mem_interior.mp interior
  apply le_antisymm
  · exact wordsFrom_ripped_le
  · let F : State → Language Char := fun q =>
      if q = p then (g.step p p)∗ * g.wordsBeyond p interior else (g.ripped p interior).wordsFrom q
    have here : F p = (g.step p p)∗ * g.wordsBeyond p interior := if_pos rfl
    have other : ∀ q, q ≠ p → F q = (g.ripped p interior).wordsFrom q := fun q different =>
      if_neg different
    have below : g.wordsFrom g.start ≤ F g.start := by
      apply wordsFrom_le
      · rw [other _ notAccept.symm]
        exact nil_mem_wordsFrom
      · intro s t
        by_cases source : s = p
        · subst source
          by_cases target : t = s
          · subst target
            rw [here, ← mul_assoc]
            exact mul_le_mul_left mul_kstar_le_kstar _
          · rw [here, other t target]
            intro w h
            exact Language.append_mem_mul (Language.nil_mem_kstar _) ⟨t, target, h⟩
        · rw [other s source]
          by_cases target : t = p
          · subst target
            rw [here]
            exact step_mul_wordsBeyond_le source
          · rw [other t target]
            intro w h
            obtain ⟨u, first, v, rest, rfl⟩ := Language.mem_mul.mp h
            have step : u ∈ (g.ripped p interior).step s t := by
              rw [step_ripped source target, Language.mem_add]
              exact .inl first
            exact step_mul_wordsFrom_le (Language.append_mem_mul step rest)
    rw [other _ notStart.symm] at below
    exact below

/-! ### What elimination keeps of the labels -/

/-- A property of labels that may depend on their pairs and that the new labels of a ripped state
    share with the old ones. -/
structure Persistent (P : State → State → Regex → Prop) : Prop where
  null : ∀ s t, P s t .null
  bypass : ∀ {p s t direct enters loops leaves}, P s t direct → P s p enters → P p p loops →
    P p t leaves → P s t (.unionOf [direct, .concatOf [enters, .starOf loops, leaves]])

theorem persistent_of_hereditary {P : Regex → Prop} (hereditary : Regex.Hereditary P) :
    Persistent fun _ _ => P where
  null _ _ := hereditary.null
  bypass direct enters loops leaves := by
    apply hereditary.unionOf
    simp only [List.mem_cons, List.not_mem_nil, or_false, forall_eq_or_imp, forall_eq]
    refine ⟨direct, hereditary.concatOf ?_⟩
    simp only [List.mem_cons, List.not_mem_nil, or_false, forall_eq_or_imp, forall_eq]
    exact ⟨enters, hereditary.starOf loops, leaves⟩

variable {P : State → State → Regex → Prop}

theorem Persistent.ripped (persistent : Persistent P) (holds : ∀ s t, P s t (g.labels.label s t))
    (s t : State) : P s t ((g.ripped p interior).labels.label s t) := by
  show P s t ((g.rippedDiagram p).labels.label s t)
  rw [label_rippedDiagram]
  split
  · exact persistent.bypass (holds s t) (holds s p) (holds p p) (holds p t)
  · split
    · exact holds s t
    · exact persistent.null s t

/-! ### The whole elimination -/

theorem size_interior_ripped (interior : p ∈ g.interior) :
    (g.ripped p interior).interior.size + 1 = g.interior.size := by
  have rest : (g.ripped p interior).interior = g.interior.filter fun q => decide (q ≠ p) := by
    apply SortedSet.ext
    intro q
    rw [mem_interior_ripped, SortedSet.mem_filter, decide_eq_true_eq]
  have member : p ∈ g.interior.toList := interior
  have erased : (g.interior.filter fun q => decide (q ≠ p)).toList = g.interior.toList.erase p := by
    rw [g.interior.nodup_toList.erase_eq_filter]
    exact List.filter_congr fun q _ => by rw [Bool.eq_iff_iff, decide_eq_true_eq, bne_iff_ne]
  rw [rest, SortedSet.size, erased]
  exact List.length_erase_add_one member

theorem cheapest_mem (p : State) (l : List State) : g.cheapest p l ∈ p :: l := by
  rw [cheapest]
  induction l generalizing p with
  | nil => simp
  | cons q l ih =>
      rw [List.foldl_cons]
      split
      · exact List.mem_cons_of_mem p (ih q)
      · rcases List.mem_cons.mp (ih p) with same | later
        · rw [same]
          exact List.mem_cons_self
        · exact List.mem_cons_of_mem p (List.mem_cons_of_mem q later)

theorem lowestCostState_cases :
    (g.lowestCostState = none ∧ g.interior.size = 0) ∨
      ∃ p, g.lowestCostState = some p ∧ p ∈ g.interior := by
  unfold lowestCostState SortedSet.size
  cases states : g.interior.toList with
  | nil => exact .inl ⟨rfl, rfl⟩
  | cons p l =>
      refine .inr ⟨g.cheapest p l, rfl, ?_⟩
      rw [← SortedSet.mem_toList, states]
      exact cheapest_mem p l

/-- Elimination with enough steps ends without interior states, and it keeps the language. -/
theorem eliminate_ok {count : Nat} (enough : g.interior.size ≤ count) (persistent : Persistent P)
    (holds : ∀ s t, P s t (g.labels.label s t)) :
    ∃ h, eliminate count g = .ok h ∧ h.interior.size = 0 ∧ h.alphabet = g.alphabet ∧
      h.start = g.start ∧ h.accept = g.accept ∧ (∀ s t, P s t (h.labels.label s t)) ∧
      h.language = g.language := by
  induction count generalizing g with
  | zero => exact ⟨g, rfl, Nat.le_zero.mp enough, rfl, rfl, rfl, holds, rfl⟩
  | succ count ih =>
      rw [eliminate]
      rcases lowestCostState_cases with ⟨none, empty⟩ | ⟨p, lowest, interior⟩
      · rw [none]
        exact ⟨g, rfl, empty, rfl, rfl, rfl, holds, rfl⟩
      · have size := size_interior_ripped interior
        obtain ⟨h, run, done, alphabet, start, accept, labels, language⟩ :=
          ih (g := g.ripped p interior) (by omega) (persistent.ripped holds)
        rw [lowest]
        refine ⟨h, ?_, done, alphabet, start, accept, labels, language.trans language_ripped⟩
        simp only [rip_ok interior]
        exact run

theorem language_of_interior_empty (done : g.interior.size = 0) :
    g.language = g.step g.start g.accept := by
  have none : ∀ p, p ∈ g.states → p = g.start ∨ p = g.accept := by
    intro p member
    apply Classical.byContradiction
    intro other
    have inside : p ∈ g.interior.toList := mem_interior.mpr ⟨member, not_or.mp other⟩
    rw [List.eq_nil_of_length_eq_zero done] at inside
    cases inside
  apply le_antisymm
  · let F : State → Language Char := fun q => if q = g.accept then 1 else g.step q g.accept
    have last : F g.accept = 1 := if_pos rfl
    have first : F g.start = g.step g.start g.accept := if_neg g.closed.start_ne_accept
    rw [← first]
    apply wordsFrom_le
    · rw [last]
      exact Language.nil_mem_one
    · intro p q
      by_cases label : g.labels.label p q = .null
      · rw [step_eq_zero label, zero_mul]
        exact bot_le
      · obtain ⟨source, target, notStart, notAccept⟩ := label_inside label
        obtain rfl := (none p source).resolve_right notAccept
        obtain rfl := (none q target).resolve_left notStart
        rw [last, first, mul_one]
  · intro w h
    have path := step_mul_wordsFrom_le (Language.append_mem_mul h (nil_mem_wordsFrom (g := g)))
    rwa [List.append_nil] at path

/-- Elimination always succeeds, and its expression matches what the automaton accepts. -/
theorem toRegex_ok (persistent : Persistent P) (holds : ∀ s t, P s t (g.labels.label s t)) :
    ∃ r, g.toRegex = .ok r ∧ P g.start g.accept r ∧ r.language g.alphabet = g.language := by
  obtain ⟨h, run, done, alphabet, start, accept, labels, language⟩ :=
    eliminate_ok (Nat.le_refl _) persistent holds
  refine ⟨h.labels.label h.start h.accept, ?_, ?_, ?_⟩
  · rw [toRegex, run]
    rfl
  · rw [← start, ← accept]
    exact labels _ _
  · rw [← language, language_of_interior_empty done, step, alphabet]

end GNFA

namespace NFA

/-- State elimination of any automaton gives an expression that matches what the automaton accepts,
    and the automaton of that expression accepts alike. It exists if the allocator has as many
    states left as the expression takes, and else the numbers run out. With the allocator that
    leaves out the automaton's own states, the generalized automaton always exists. -/
theorem toRegex_accepts_iff_matches (n : NFA) :
    (∃ g c, (GNFA.ofNFA n).runFrom (GNFA.bridgeAllocator n) = (.ok g, c)) ∧
      ∀ a g c, (GNFA.ofNFA n).runFrom a = (.ok g, c) →
        ∃ r, g.toRegex = .ok r ∧
          (∀ word : String, Regex.Matches n.alphabet r word.toList ↔ n.accepts word = .ok true) ∧
          ∀ b : Allocator,
            (b.largest = none → b.Supplies r.stateCount) ∧
            (b.Supplies r.stateCount →
              ∃ m d, (ofRegex n.alphabet r).runFrom b = (.ok m, d) ∧
                ∀ word, m.accepts word = n.accepts word) ∧
            (¬ b.Supplies r.stateCount →
              ∃ d, (ofRegex n.alphabet r).runFrom b = (.error .numbersExhausted, d)) := by
  constructor
  · have spec : (GNFA.ofNFA n).Ensures (GNFA.bridgeAllocator n) (fun _ _ => True) fun _ => False :=
      (GNFA.ofNFA_ensures fun p q first second taken =>
        taken.elim first.1 second.1).weaken (fun _ _ _ _ => trivial) fun _ h => h
    obtain ⟨g, c, run, _⟩ := spec.ok_of_endless rfl
    exact ⟨g, c, run⟩
  · intro a g c run
    have spec := GNFA.ofNFA_ensures (n := n) (a := a) (F := fun _ => True) fun _ _ _ _ _ => trivial
    have generalizes := (spec.of_ok run).2
    obtain ⟨r, built, isOver, matched⟩ := GNFA.toRegex_ok
      (GNFA.persistent_of_hereditary (Regex.hereditary_isOver n.alphabet)) generalizes.isOver
    rw [generalizes.alphabet, generalizes.language] at matched
    refine ⟨r, built, fun word => ?_, fun b => ?_⟩
    · rw [accepts_iff, ← matched]
      exact Regex.mem_language.symm
    · have compiled : (ofRegex n.alphabet r).Ensures b
          (fun m _ => m.alphabet = n.alphabet ∧ m.language = r.language n.alphabet)
          fun _ => False :=
        (ofRegex_compiles r b).weaken (fun m d _ h => ⟨h.2.1, h.2.2.2⟩)
          fun e failed => failed.2 isOver
      refine ⟨fun endless => Building.supplies_of_endless endless _, fun enough => ?_,
        (ofRegex_takes r b).exhausted_of_lacking compiled⟩
      obtain ⟨m, d, run, same, kept⟩ := (ofRegex_takes r b).ok_of_supplies compiled enough
      exact ⟨m, d, run, fun _ => accepts_congr same (kept.trans matched)⟩

/-- Two states in a circle of an edge and an ε-move, the second one accepting. -/
theorem toRegex_matches_circle :
    let n : NFA := {
      states := .ofList [⟨"p"⟩, ⟨"q"⟩]
      alphabet := ⟨.ofList ['a', 'b'], by decide, by decide⟩
      edges := .ofList [⟨⟨"p"⟩, "a", ⟨"q"⟩⟩, ⟨⟨"q"⟩, Symbol.epsilon, ⟨"p"⟩⟩]
      start := ⟨"p"⟩
      accepting := .ofList [⟨"q"⟩]
      closed := ⟨by decide +kernel, by decide +kernel, by decide +kernel, by decide +kernel⟩
      label_mem := by decide +kernel }
    ∃ g c, (GNFA.ofNFA n).runFrom { stem := "x", next := 3 } = (.ok g, c) ∧
      ∃ r, g.toRegex = .ok r ∧
        (∀ word : String, Regex.Matches n.alphabet r word.toList ↔ n.accepts word = .ok true) ∧
        ∃ m d, (ofRegex n.alphabet r).runFrom {} = (.ok m, d) ∧
          ∀ word, m.accepts word = n.accepts word := by
  intro n
  have succeeds : ((GNFA.ofNFA n).runFrom { stem := "x", next := 3 }).1.isOk = true := by
    decide +kernel
  cases run : (GNFA.ofNFA n).runFrom { stem := "x", next := 3 } with
  | mk result c =>
      rw [run] at succeeds
      cases result with
      | error e => cases succeeds
      | ok g =>
          obtain ⟨r, built, matched, compiles⟩ := n.toRegex_accepts_iff_matches.2 _ g c run
          obtain ⟨endless, enough, _⟩ := compiles {}
          exact ⟨g, c, rfl, r, built, matched, enough (endless rfl)⟩

end NFA

end Automata
