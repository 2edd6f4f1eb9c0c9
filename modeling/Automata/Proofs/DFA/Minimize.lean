import Automata.DFA.Minimize
import Automata.Proofs.DFA.Distinguish
import Automata.Proofs.DFA.Naming
import Automata.Proofs.DisjointSets
import Automata.Proofs.NFA.Rename

/-! # The language of the minimal automaton

The classes of a set of states that no run leaves are the classes of the states that no word tells
apart. Each is represented by one of its states, and moves between representatives are well defined.
-/

namespace Automata.DFA

variable {d : DFA} {p q r : State} {c : Char} {w : List Char} {S : SortedSet State} {l : List State}
  {m : Renaming}

/-! ### Representatives -/

theorem least_cases (p q : State) : State.least p q = p ∨ State.least p q = q := by
  unfold State.least
  split
  · exact .inr rfl
  · exact .inl rfl

theorem least_le (p q : State) :
    (compare (State.least p q) p).isLE = true ∧ (compare (State.least p q) q).isLE = true := by
  unfold State.least
  cases order : compare p q with
  | lt => simp [order]
  | eq => simp [order]
  | gt => simp [Std.OrientedCmp.gt_iff_lt.mp order]

theorem smallest_mem : smallest p l ∈ p :: l := by
  rw [smallest]
  induction l generalizing p with
  | nil => exact List.mem_cons_self
  | cons q l ih =>
      rw [List.foldl_cons]
      rcases List.mem_cons.mp (@ih (State.least p q)) with same | later
      · rw [same]
        rcases least_cases p q with first | second
        · rw [first]
          exact List.mem_cons_self
        · rw [second]
          exact List.mem_cons_of_mem p List.mem_cons_self
      · exact List.mem_cons_of_mem p (List.mem_cons_of_mem q later)

theorem smallest_le (member : q ∈ p :: l) : (compare (smallest p l) q).isLE = true := by
  rw [smallest]
  induction l generalizing p q with
  | nil =>
      obtain rfl := List.mem_singleton.mp member
      simp
  | cons r l ih =>
      rw [List.foldl_cons]
      have start := ih (p := State.least p r) List.mem_cons_self
      rcases List.mem_cons.mp member with rfl | rest
      · exact Std.TransCmp.isLE_trans start (least_le q r).1
      · rcases List.mem_cons.mp rest with rfl | later
        · exact Std.TransCmp.isLE_trans start (least_le p q).2
        · exact ih (List.mem_cons_of_mem _ later)

theorem smallest_eq (hp : p ∈ l) (hq : q ∈ l) : smallest p l = smallest q l := by
  have inside (p : State) (member : p ∈ l) (q : State) : smallest p l ∈ q :: l := by
    apply List.mem_cons_of_mem
    rcases List.mem_cons.mp (@smallest_mem p l) with same | later
    · rwa [same]
    · exact later
  exact Std.compare_eq_iff_eq.mp
    (Std.OrientedCmp.isLE_antisymm (smallest_le (inside q hq p)) (smallest_le (inside p hp q)))

/-- The sets of a partition are the classes of a set of states. -/
structure Groups (d : DFA) (S : SortedSet State) (sets : DisjointSets State) : Prop where
  mem_items : ∀ p, p ∈ sets.items ↔ p ∈ S
  root_eq_iff : ∀ p ∈ S, ∀ q ∈ S, sets.root p = sets.root q ↔ d.Equivalent p q

/-- The sets that are built for a sealed set of states are its classes of equivalent states, in
    whatever order the states come and whichever roots stay. -/
theorem groups_classesBy {pick : DisjointSets State → State → List State → State}
    (chooses : DisjointSets.Chooses pick) (enclosed : d.Sealed S) (nodup : l.Nodup)
    (members : ∀ p, p ∈ l ↔ p ∈ S) : d.Groups S (d.classesBy pick l) := by
  obtain ⟨grounded, root, items⟩ := DisjointSets.grounded_ofList (l := l)
  have sorted : Sorting.sort l = S.toList := SortedSet.sort_eq_toList nodup members
  have merged (k : State × State) : k ∈ (pairsOf (Sorting.sort l)).filter
      (fun k => !(d.distinguishablePairs l).contains k) ↔
        (k.1 ∈ S ∧ k.2 ∈ S ∧ compare k.1 k.2 = .lt) ∧ d.Equivalent k.1 k.2 := by
    rw [sorted, distinguishablePairs_of_sort sorted, List.mem_filter, mem_pairsOf S.sorted]
    refine and_congr_right fun inside => ?_
    have apart := mem_distinguishablePairs enclosed inside.1 inside.2.1 inside.2.2
    rw [List.contains_eq_mem, Bool.not_eq_true', decide_eq_false_iff_not, apart, not_not]
  obtain ⟨_, items', sound, _, joined⟩ := grounded.mergePairs chooses d.equivalence
    (fun p q same => by
      rw [root, root] at same
      exact same ▸ .refl d p)
    (fun k member => ((merged k).mp member).2)
    (fun k member => by
      rw [items, items, members, members]
      exact ⟨((merged k).mp member).1.1, ((merged k).mp member).1.2.1⟩)
  refine ⟨fun p => (items' p).trans ((items p).trans (members p)),
    fun p hp q hq => ⟨sound p q, fun same => ?_⟩⟩
  cases order : compare p q with
  | lt => exact joined (p, q) ((merged _).mpr ⟨⟨hp, hq, order⟩, same⟩)
  | eq => rw [Std.compare_eq_iff_eq.mp order]
  | gt =>
      have order := Std.OrientedCmp.gt_iff_lt.mp order
      exact (joined (q, p) ((merged _).mpr ⟨⟨hq, hp, order⟩, same.symm⟩)).symm

namespace Groups

variable {sets : DisjointSets State} (groups : d.Groups S sets)

include groups

theorem mem_setOf (inside : p ∈ S) : q ∈ sets.setOf p ↔ q ∈ S ∧ d.Equivalent q p := by
  rw [DisjointSets.setOf, List.mem_filter, groups.mem_items, decide_eq_true_eq]
  exact and_congr_right fun member => groups.root_eq_iff q member p inside

theorem setOf_eq (hp : p ∈ S) (hq : q ∈ S) (same : d.Equivalent p q) :
    sets.setOf p = sets.setOf q := by
  rw [DisjointSets.setOf, DisjointSets.setOf, (groups.root_eq_iff p hp q hq).mpr same]

/-- A state is represented by the smallest member of its class. -/
theorem get?_elect :
    (elect sets).get? p = some q ↔ p ∈ S ∧ q = smallest p (sets.setOf p) := by
  have entries (p q : State) :
      (p, q) ∈ sets.sets.flatMap (fun l => l.map fun p => (p, smallest p l)) ↔
        p ∈ S ∧ q = smallest p (sets.setOf p) := by
    rw [List.mem_flatMap]
    constructor
    · intro ⟨l, listed, pair⟩
      obtain ⟨x, known, rfl⟩ := DisjointSets.mem_sets.mp listed
      obtain ⟨y, member, same⟩ := List.mem_map.mp pair
      cases same
      have inside' := (groups.mem_items x).mp known
      obtain ⟨inside, same⟩ := (groups.mem_setOf inside').mp member
      exact ⟨inside, by rw [groups.setOf_eq inside inside' same]⟩
    · intro ⟨inside, same⟩
      refine ⟨sets.setOf p, DisjointSets.mem_sets.mpr ⟨p, (groups.mem_items p).mpr inside, rfl⟩, ?_⟩
      have member := (groups.mem_setOf inside).mpr ⟨inside, .refl d p⟩
      exact List.mem_map.mpr ⟨p, member, by rw [same]⟩
  rw [← entries]
  apply Table.get?_ofList_of_functional
  intro u v first second
  rw [((entries p u).mp first).2, ((entries p v).mp second).2]

theorem rename_elect (inside : p ∈ S) : (elect sets).rename p = smallest p (sets.setOf p) := by
  rw [Renaming.rename, groups.get?_elect.mpr ⟨inside, rfl⟩, Option.getD_some]

/-- The representative of a class is one of its members. -/
theorem rename_mem (inside : p ∈ S) :
    (elect sets).rename p ∈ S ∧ d.Equivalent ((elect sets).rename p) p := by
  rw [groups.rename_elect inside]
  rcases List.mem_cons.mp (@smallest_mem p (sets.setOf p)) with same | member
  · rw [same]
    exact ⟨inside, .refl d p⟩
  · exact (groups.mem_setOf inside).mp member

/-- No member of a class is smaller than its representative. -/
theorem rename_le (hp : p ∈ S) (hq : q ∈ S) (same : d.Equivalent q p) :
    (compare ((elect sets).rename p) q).isLE = true := by
  rw [groups.rename_elect hp]
  exact smallest_le (List.mem_cons_of_mem p ((groups.mem_setOf hp).mpr ⟨hq, same⟩))

end Groups

/-- A renaming of a set of states to representatives of their classes. -/
structure Represents (d : DFA) (S : SortedSet State) (m : Renaming) : Prop where
  get? : ∀ p ∈ S, m.get? p = some (m.rename p)
  mem_of_get? : ∀ p q, m.get? p = some q → p ∈ S
  equivalent : ∀ p ∈ S, d.Equivalent (m.rename p) p
  rename_eq : ∀ p ∈ S, ∀ q ∈ S, d.Equivalent p q → m.rename p = m.rename q

theorem Groups.represents {sets : DisjointSets State} (groups : d.Groups S sets) :
    d.Represents S (elect sets) where
  get? p inside := by
    rw [groups.rename_elect inside]
    exact groups.get?_elect.mpr ⟨inside, rfl⟩
  mem_of_get? p q found := (groups.get?_elect.mp found).1
  equivalent p inside := (groups.rename_mem inside).2
  rename_eq p hp q hq same := by
    rw [groups.rename_elect hp, groups.rename_elect hq, groups.setOf_eq hp hq same]
    apply smallest_eq
    · exact (groups.mem_setOf hq).mpr ⟨hp, same⟩
    · exact (groups.mem_setOf hq).mpr ⟨hq, .refl d q⟩

namespace Represents

variable (represents : d.Represents S m)

include represents

theorem apply_ok (inside : p ∈ S) : m.apply p = .ok (m.rename p) := by
  rw [Renaming.apply, represents.get? p inside]

theorem rename_eq_iff (hp : p ∈ S) (hq : q ∈ S) : m.rename p = m.rename q ↔ d.Equivalent p q := by
  constructor
  · intro same
    have first := (represents.equivalent p hp).symm
    rw [same] at first
    exact first.trans (represents.equivalent q hq)
  · exact represents.rename_eq p hp q hq

theorem mem_values : r ∈ m.values ↔ ∃ p ∈ S, r = m.rename p := by
  rw [Table.values, List.mem_map]
  constructor
  · intro listed
    obtain ⟨e, entry, same⟩ := listed
    have found : m.get? e.1 = some e.2 := Table.get?_eq_some_iff.mpr entry
    have inside := represents.mem_of_get? _ _ found
    rw [represents.get? _ inside] at found
    exact ⟨e.1, inside, same.symm.trans (Option.some_inj.mp found).symm⟩
  · intro known
    obtain ⟨p, inside, same⟩ := known
    exact ⟨(p, m.rename p), Table.get?_eq_some_iff.mp (represents.get? p inside), same.symm⟩

end Represents

/-! ### The automaton on the representatives -/

/-- The state after a character, or the same state if there is no move. -/
def after (d : DFA) (p : State) (c : Char) : State := (d.next p c).getD p

theorem Sealed.after (enclosed : d.Sealed S) (inside : p ∈ S) (letter : c ∈ d.alphabet) :
    d.after p c ∈ S ∧ d.next p c = some (d.after p c) := by
  obtain ⟨q, reached, move⟩ := enclosed.next_ok inside letter
  have same : d.after p c = q := by rw [DFA.after, move, Option.getD_some]
  rw [same]
  exact ⟨reached, move⟩

theorem recognizesFrom_eq_after (enclosed : d.Sealed S) (covered : ∀ c ∈ w, c ∈ d.alphabet)
    (inside : p ∈ S) : d.recognizesFrom p w = decide (w.foldl d.after p ∈ d.accepting) := by
  induction w generalizing p with
  | nil => exact recognizesFrom_nil
  | cons c w ih =>
      obtain ⟨reached, move⟩ := enclosed.after inside (covered c List.mem_cons_self)
      rw [recognizesFrom_cons move, List.foldl_cons]
      exact ih (fun b later => covered b (List.mem_cons_of_mem c later)) reached

/-- The states of a set, named by the representatives of their classes. -/
def classNaming (d : DFA) (S : SortedSet State) (m : Renaming) : Naming State where
  elements := S.toList
  name := m.rename
  alphabet := d.alphabet
  step := d.after
  start := d.start
  final p := decide (p ∈ d.accepting)

theorem Represents.sound (represents : d.Represents S m) (enclosed : d.Sealed S)
    (start : d.start ∈ S) : (d.classNaming S m).Sound where
  start_mem := start
  step_mem _ inside _ letter := (enclosed.after inside letter).1
  step_eq p hp q hq same c letter := by
    obtain ⟨hp', move⟩ := enclosed.after hp letter
    obtain ⟨hq', move'⟩ := enclosed.after hq letter
    have equivalent := (represents.rename_eq_iff hp hq).mp same
    exact (represents.rename_eq_iff hp' hq').mpr (equivalent.next letter move move')
  final_eq p hp q hq same :=
    decide_eq_decide.mpr ((represents.rename_eq_iff hp hq).mp same).accepting

/-- The entry of a state and a character in the table of the moves between representatives. -/
def classEntry (d : DFA) (m : Renaming) (p : State) (c : Char) : (State × Symbol) × State :=
  ((m.rename p, Symbol.ofChar c), m.rename (d.after p c))

/-- The diagram on the new names of the states of a list. -/
def diagramOn (d : DFA) (l : List State) (m : Renaming) : MoveDiagram where
  states := .ofList m.values
  alphabet := d.alphabet
  moves := .ofList (l.map fun p => d.alphabet.characters.toList.map (d.classEntry m p)).flatten
  start := m.rename d.start
  accepting := .ofList ((l.filter fun p => decide (p ∈ d.accepting)).map m.rename)

/-- The order in which the states are listed does not matter. -/
theorem Represents.describes_on (represents : d.Represents S m) (members : ∀ p, p ∈ l ↔ p ∈ S) :
    (d.classNaming S m).Describes (d.diagramOn l m) where
  states p := by
    rw [diagramOn, SortedSet.mem_ofList]
    exact represents.mem_values
  alphabet := rfl
  moves := by
    refine ⟨_, rfl, fun p a q => ?_⟩
    rw [← List.flatMap_def, List.mem_flatMap]
    refine exists_congr fun x => and_congr (members x) ?_
    constructor
    · intro move
      obtain ⟨c, letter, same⟩ := List.mem_map.mp move
      cases same
      exact ⟨c, letter, rfl, rfl, rfl⟩
    · intro ⟨c, letter, source, label, target⟩
      subst source label target
      exact List.mem_map.mpr ⟨c, letter, rfl⟩
  start := rfl
  accepting p := by
    simp only [diagramOn, SortedSet.mem_ofList, List.mem_map, List.mem_filter, and_assoc]
    exact exists_congr fun q => and_congr (members q) (and_congr Iff.rfl eq_comm)

theorem Represents.describes (represents : d.Represents S m) :
    (d.classNaming S m).Describes (d.diagramOn S.toList m) :=
  represents.describes_on fun _ => Iff.rfl

theorem classMove_ok (represents : d.Represents S m) (enclosed : d.Sealed S) (inside : p ∈ S)
    (letter : c ∈ d.alphabet) : d.classMove m p c = .ok (d.classEntry m p c) := by
  obtain ⟨reached, move⟩ := enclosed.after inside letter
  rw [classMove, move]
  simp only [represents.apply_ok inside, represents.apply_ok reached]
  rfl

/-- The automaton on representatives is built from the diagram on them. -/
theorem renamedBy_eq (represents : d.Represents S m) (enclosed : d.Sealed S) (start : d.start ∈ S)
    (members : ∀ p, p ∈ l ↔ p ∈ S) : d.renamedBy m l = ofDiagram (d.diagramOn l m) := by
  have moves : l.mapM (fun p => d.alphabet.characters.toList.mapM (d.classMove m p)) =
      .ok (l.map fun p => d.alphabet.characters.toList.map (d.classEntry m p)) :=
    mapM_ok fun p listed => mapM_ok fun _ letter =>
      classMove_ok represents enclosed ((members p).mp listed) letter
  have finals : (l.filter fun p => decide (p ∈ d.accepting)).mapM m.apply =
      .ok ((l.filter fun p => decide (p ∈ d.accepting)).map m.rename) :=
    mapM_ok fun p final => represents.apply_ok ((members p).mp (List.mem_filter.mp final).1)
  rw [renamedBy]
  simp only [moves, finals, represents.apply_ok start]
  rfl

/-- A representative recognizes what the states do that it stands for. -/
theorem recognizesFrom_rename {e : DFA} (represents : d.Represents S m) (enclosed : d.Sealed S)
    (start : d.start ∈ S) (diagram : e.toMoveDiagram = d.diagramOn S.toList m)
    (covered : ∀ c ∈ w, c ∈ d.alphabet) (inside : p ∈ S) :
    e.recognizesFrom (m.rename p) w = d.recognizesFrom p w := by
  rw [recognizesFrom_eq_after enclosed covered inside]
  exact represents.describes.recognizesFrom_name (represents.sound enclosed start) diagram covered
    inside

/-- The automaton on the classes of a set of states that no run leaves exists, and it accepts
    alike. -/
theorem Groups.renamedBy_accepts {sets : DisjointSets State} (groups : d.Groups S sets)
    (enclosed : d.Sealed S) (start : d.start ∈ S) :
    ∃ e, d.renamedBy (elect sets) S.toList = .ok e ∧
      e.toMoveDiagram = d.diagramOn S.toList (elect sets) ∧ e.alphabet = d.alphabet ∧
      ∀ word, e.accepts word = d.accepts word := by
  have represents := groups.represents
  obtain ⟨e, built, diagram⟩ :=
    represents.describes.ofDiagram_ok (represents.sound enclosed start)
  have alphabet : e.alphabet = d.alphabet := by rw [diagram, diagramOn]
  have begins : e.start = (elect sets).rename d.start := by rw [diagram, diagramOn]
  refine ⟨e, ?_, diagram, alphabet, accepts_congr alphabet fun w covered => ?_⟩
  · rw [renamedBy_eq represents enclosed start fun _ => Iff.rfl, built]
  · rw [recognizes, recognizes, begins]
    exact recognizesFrom_rename represents enclosed start diagram covered start

/-! ### Reachable states -/

theorem mem_successors : q ∈ d.successors p ↔ ∃ c ∈ d.alphabet, d.next p c = some q := by
  rw [successors, List.mem_filterMap]
  exact Iff.rfl

theorem mem_states_of_reaches (reaches : Worklist.Reaches d.successors d.start p) :
    p ∈ d.states := by
  induction reaches with
  | refl => exact d.closed.start_mem
  | tail _ step ih =>
      obtain ⟨c, letter, move⟩ := mem_successors.mp step
      obtain ⟨q, state, move'⟩ := next_ok ih letter
      rw [move] at move'
      exact Option.some_inj.mp move' ▸ state

theorem mem_reachable : p ∈ d.reachable ↔ Worklist.Reaches d.successors d.start p := by
  have inside : ∀ q ∈ [d.start], ∀ r, Worklist.Reaches d.successors q r → r ∈ d.states.toList := by
    intro q root r reaches
    obtain rfl := List.mem_singleton.mp root
    exact mem_states_of_reaches reaches
  rw [reachable, SortedSet.mem_ofList, SortedSet.size, Worklist.mem_discover inside (Nat.le_refl _)]
  simp

theorem sealed_reachable (d : DFA) : d.Sealed d.reachable where
  states _ member := mem_states_of_reaches (mem_reachable.mp member)
  next_mem _ member c _ move := mem_reachable.mpr
    (.tail (mem_reachable.mp member) (mem_successors.mpr ⟨c, label_letter move, move⟩))

theorem start_mem_reachable (d : DFA) : d.start ∈ d.reachable := mem_reachable.mpr .refl

/-- Minimization always succeeds. It yields the automaton on the classes of the reachable states,
    which accepts alike. -/
theorem minimize_ok (d : DFA) :
    ∃ e sets, d.Groups d.reachable sets ∧ d.minimize = .ok e ∧
      e.toMoveDiagram = d.diagramOn d.reachable.toList (elect sets) ∧ e.alphabet = d.alphabet ∧
      ∀ word, e.accepts word = d.accepts word := by
  have groups := groups_classesBy DisjointSets.chooses_heaviest d.sealed_reachable
    d.reachable.nodup_toList fun _ => Iff.rfl
  obtain ⟨e, built⟩ := groups.renamedBy_accepts d.sealed_reachable d.start_mem_reachable
  exact ⟨e, _, groups, built⟩

theorem minimize_accepts (d : DFA) :
    ∃ e, d.minimize = .ok e ∧ e.alphabet = d.alphabet ∧
      ∀ word, e.accepts word = d.accepts word := by
  obtain ⟨e, _, _, minimizes, _, kept⟩ := d.minimize_ok
  exact ⟨e, minimizes, kept⟩

end Automata.DFA
