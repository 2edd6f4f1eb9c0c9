import Automata.DFA.Nerode
import Automata.Proofs.DFA.Minimize

/-! # Minimization computes the quotient

The classes that are merged are those of the reached states, whichever roots stay and in whatever
order the states come. Only the smallest state of a class counts in the end, so that every choice
gives the same automaton.
-/

namespace Automata.DFA

variable {d m : DFA} {p q : State} {S : SortedSet State} {l : List State}
  {sets sets' : DisjointSets State} {pick : DisjointSets State → State → List State → State}

theorem reaches_iff_run : Worklist.Reaches d.successors p q ↔ ∃ w, d.run p w = some q := by
  constructor
  · intro reaches
    induction reaches using Relation.ReflTransGen.head_induction_on with
    | refl => exact ⟨[], rfl⟩
    | head step _ ih =>
        obtain ⟨c, _, move⟩ := mem_successors.mp step
        obtain ⟨w, run⟩ := ih
        exact ⟨c :: w, by rw [run_cons, move, Option.bind_some, run]⟩
  · rintro ⟨w, run⟩
    induction w generalizing p with
    | nil =>
        cases run
        exact .refl
    | cons c w ih =>
        obtain ⟨r, move, rest⟩ := Option.bind_eq_some_iff.mp run
        exact .head (mem_successors.mpr ⟨c, label_letter move, move⟩) (ih rest)

theorem mem_reachable_iff : p ∈ d.reachable ↔ d.IsReached p :=
  mem_reachable.trans reaches_iff_run

/-- Partitions into the same classes elect the same representatives. -/
theorem Groups.rename_unique (groups : d.Groups S sets) (groups' : d.Groups S sets')
    (inside : p ∈ S) : (elect sets').rename p = (elect sets).rename p := by
  obtain ⟨member, same⟩ := groups.rename_mem inside
  obtain ⟨member', same'⟩ := groups'.rename_mem inside
  exact Std.compare_eq_iff_eq.mp (Std.OrientedCmp.isLE_antisymm
    (groups'.rename_le inside member same) (groups.rename_le inside member' same'))

theorem Groups.isLeast (groups : d.Groups d.reachable sets) (reached : d.IsReached p) :
    d.IsLeast p ((elect sets).rename p) := by
  have inside := mem_reachable_iff.mpr reached
  obtain ⟨member, same⟩ := groups.rename_mem inside
  refine ⟨mem_reachable_iff.mp member, same, fun q reached' same' => ?_⟩
  exact groups.rename_le inside (mem_reachable_iff.mpr reached') same'

/-- An automaton on the elected states is the quotient. -/
theorem Groups.isQuotient (groups : d.Groups d.reachable sets)
    (diagram : m.toMoveDiagram = d.diagramOn d.reachable.toList (elect sets)) :
    d.IsQuotient m (elect sets).rename := by
  have enclosed := d.sealed_reachable
  have start := d.start_mem_reachable
  have describes := groups.represents.describes
  constructor
  · exact fun p => groups.isLeast
  · rw [diagram, diagramOn]
  · intro q
    rw [diagram, describes.states]
    exact exists_congr fun p => and_congr_left fun _ => mem_reachable_iff
  · rw [diagram, diagramOn]
  · intro q
    rw [diagram, describes.accepting]
    refine exists_congr fun p => and_congr mem_reachable_iff (and_congr_left fun _ => ?_)
    exact decide_eq_true_iff
  · intro p reached c q move
    have inside := mem_reachable_iff.mpr reached
    have after : d.after p c = q := by rw [DFA.after, move, Option.getD_some]
    rw [← after]
    exact describes.next_name (groups.represents.sound enclosed start) diagram inside
      (label_letter move)

/-- Every order of the states and every choice of roots give the same diagram. -/
theorem Groups.renamedBy_ok (groups : d.Groups d.reachable sets)
    (groups' : d.Groups d.reachable sets') (members : ∀ p, p ∈ l ↔ p ∈ d.reachable)
    (diagram : m.toMoveDiagram = d.diagramOn d.reachable.toList (elect sets)) :
    ∃ e, d.renamedBy (elect sets') l = .ok e ∧ e.diagram = m.diagram := by
  have enclosed := d.sealed_reachable
  have start := d.start_mem_reachable
  have sound := groups'.represents.sound enclosed start
  have describes := groups.represents.describes
  have describes' := groups'.represents.describes_on members
  obtain ⟨e, built, same⟩ := describes'.ofDiagram_ok sound
  refine ⟨e, (renamedBy_eq groups'.represents enclosed start members).trans built, ?_⟩
  rw [same, diagram]
  refine describes'.diagram_eq sound (describes.congr (groups.represents.sound enclosed start) ?_)
  exact fun p inside => groups.rename_unique groups' inside

/-- Minimization yields the quotient of the automaton, which accepts alike. Any listing of the
    reached states and any choice of roots for merged sets yield the same states and edges. -/
theorem minimize_isQuotient (d : DFA) :
    ∃ m rep, d.minimize = .ok m ∧ d.IsQuotient m rep ∧ (∀ word, m.accepts word = d.accepts word) ∧
      d.minimize = d.quotientBy DisjointSets.heaviest d.reachable.toList ∧
      ∀ pick, DisjointSets.Chooses pick → ∀ l : List State, l.Nodup →
        (∀ p, p ∈ l ↔ d.IsReached p) →
          ∃ e, d.quotientBy pick l = .ok e ∧ e.diagram = m.diagram := by
  obtain ⟨m, sets, groups, minimizes, diagram, _, accepts⟩ := d.minimize_ok
  refine ⟨m, _, minimizes, groups.isQuotient diagram, accepts, rfl, ?_⟩
  intro pick chooses l nodup members
  have listed (p : State) : p ∈ l ↔ p ∈ d.reachable := (members p).trans mem_reachable_iff.symm
  have groups' := groups_classesBy chooses d.sealed_reachable nodup listed
  exact groups.renamedBy_ok groups' listed diagram

/-- The larger of two equivalent states is the start, and it is replaced by the smaller one. The
    states may come in reverse order, and the last root may stay. -/
theorem minimize_isQuotient_redirected :
    let a : State := ⟨"a"⟩
    let b : State := ⟨"b"⟩
    let D : MoveDiagram := ⟨.ofList [a, b], ⟨.ofList ['x'], by decide, by decide⟩,
      .ofList [((a, "x"), a), ((b, "x"), a)], b, .ofList [a, b]⟩
    ∃ d m e, ofDiagram D = .ok d ∧ d.minimize = .ok m ∧ m.start = a ∧
      m.next a 'x' = some a ∧ (∀ word, m.accepts word = d.accepts word) ∧
      d.quotientBy (fun _ r l => l.getLastD r) [b, a] = .ok e ∧ e.diagram = m.diagram := by
  intro a b D
  let d : DFA := ⟨D, ⟨by decide +kernel, by decide +kernel, by decide +kernel, by decide +kernel⟩,
    by decide +kernel, by decide +kernel⟩
  have reached : ∀ p, p ∈ [b, a] ↔ d.IsReached p := by
    intro p
    constructor
    · intro listed
      rcases List.mem_pair.mp listed with rfl | rfl
      · exact ⟨[], rfl⟩
      · exact ⟨['x'], by decide +kernel⟩
    · intro reached
      have state : p ∈ d.states := mem_states_of_reaches (reaches_iff_run.mpr reached)
      exact List.mem_pair.mpr (List.mem_pair.mp (SortedSet.mem_ofList.mp state)).symm
  have chooses : DisjointSets.Chooses fun _ (r : State) l => l.getLastD r := by
    intro _ r l
    cases l with
    | nil => exact List.mem_cons_self
    | cons q l => exact List.mem_cons_of_mem r (List.getLast_mem (List.cons_ne_nil q l))
  obtain ⟨m, rep, minimizes, quotient, accepts, _, any⟩ := minimize_isQuotient d
  obtain ⟨e, built, same⟩ := any _ chooses [b, a] (by decide) reached
  have equivalent : d.Equivalent a b := by
    intro w covered
    cases w with
    | nil => decide +kernel
    | cons c w =>
        obtain rfl : c = 'x' := List.mem_singleton.mp
          (SortedSet.mem_ofList.mp (covered c List.mem_cons_self))
        have first : d.next a 'x' = some a := by decide +kernel
        have second : d.next b 'x' = some a := by decide +kernel
        rw [recognizesFrom_cons first, recognizesFrom_cons second]
  have rep_eq (p : State) (listed : p ∈ [b, a]) (alike : d.Equivalent a p) : rep p = a := by
    have least := quotient.least p ((reached p).mp listed)
    have below := least.le a ((reached a).mp (by decide)) alike
    rcases List.mem_pair.mp ((reached _).mpr least.reached) with other | here
    · rw [other] at below
      exact absurd below (by decide)
    · exact here
  refine ⟨d, m, e, ofDiagram_eq d.closed d.label_mem d.total, minimizes, ?_, ?_, accepts, built,
    same⟩
  · exact quotient.start.trans (rep_eq b (by decide) equivalent)
  · have move := quotient.next a ((reached a).mp (by decide)) 'x' a (by decide +kernel)
    rwa [rep_eq a (by decide) (.refl d a)] at move

end Automata.DFA
