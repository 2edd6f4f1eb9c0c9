import Automata.Proofs.DisjointSets.History
import Mathlib.Algebra.BigOperators.Group.List.Basic
import Mathlib.Algebra.GroupWithZero.Nat

/-! # Roots know the sizes of their sets

A merge hangs lighter roots below a heaviest one, which takes over their weights, and a lookup only
shortens ways. So the weight of a root is the number of items in its set, whatever is left behind at
the other items, and a step towards a root at least doubles the set that an item is in.
-/

namespace Automata.DisjointSets

universe u

variable {α : Type u} [DecidableEq α]
variable {d e : DisjointSets α} {x y r s q : α} {l : List α} {n : Nat}

/-- How many items have a given root. -/
def population (d : DisjointSets α) (r : α) : Nat :=
  d.items.countP fun x => decide (d.root x = r)

theorem length_setOf : (d.setOf x).length = d.population (d.root x) :=
  List.countP_eq_length_filter.symm

omit [DecidableEq α] in
theorem countP_items {p : α → Bool} (same : ∀ x, x ∈ e.items ↔ x ∈ d.items) :
    e.items.countP p = d.items.countP p :=
  ((List.perm_ext_iff_of_nodup e.nodes.nodup d.nodes.nodup).mpr same).countP_eq p

/-- Each root knows how many items its set has, and a root that is `n` steps above an item has at
    least `2 ^ n` of them. -/
structure Balanced (d : DisjointSets α) : Prop where
  grounded : d.Grounded
  weight_eq : ∀ r ∈ d.items, d.parent r = r → d.weight r = d.population r
  pow_le : ∀ x ∈ d.items, ∀ n r, Climbs d.parent n x r → 2 ^ n ≤ d.population r

/-! ### Looking up -/

theorem weight_put {p : α} {w : Nat} :
    (⟨d.nodes.put y ⟨p, w⟩⟩ : DisjointSets α).weight x = if y = x then w else d.weight x := by
  rw [weight, Table.get?_put]
  by_cases here : y = x
  · rw [if_pos here, if_pos here]
  · rw [if_neg here, if_neg here]
    rfl

theorem weight_setParent {p : α} : (d.setParent y p).weight x = d.weight x := by
  rw [setParent, weight_put]
  by_cases here : y = x
  · rw [if_pos here, here]
  · rw [if_neg here]

theorem weight_of_unknown (unknown : x ∉ d.items) : d.weight x = 1 := by
  rw [weight, get?_eq_none unknown]

/-- An item that is added has the weight that it counted with before. -/
theorem weight_add : (d.add x).weight y = d.weight y := by
  by_cases known : x ∈ d.items
  · rw [add_of_mem known]
  · rw [DisjointSets.add, get?_eq_none known, weight_put]
    by_cases here : x = y
    · rw [if_pos here, ← here, weight_of_unknown known]
    · rw [if_neg here]

theorem Keeps.mem_items_iff (keeps : Keeps d e []) (x : α) : x ∈ e.items ↔ x ∈ d.items := by
  simp [keeps.mem_items]

theorem Keeps.population_eq (keeps : Keeps d e []) : e.population r = d.population r := by
  rw [population, population, countP_items keeps.mem_items_iff]
  simp only [keeps.root_eq]

theorem root_of_unknown (unknown : x ∉ d.items) : d.root x = x :=
  Grounded.root_of_parent_eq (not_not.mp fun lower => unknown (mem_items_of_parent_ne lower))

theorem Grounded.population_of_unknown (grounded : d.Grounded) (unknown : x ∉ d.items) :
    d.population x = 0 := by
  rw [population, List.countP_eq_zero]
  intro y known same
  exact unknown (of_decide_eq_true same ▸ grounded.root_mem_items known)

theorem Grounded.population_add (grounded : d.Grounded) (unknown : x ∉ d.items) :
    (d.add x).population r = d.population r + if x = r then 1 else 0 := by
  rw [population, items_add unknown, List.countP_append, List.countP_singleton]
  simp only [grounded.add.root_eq, root_of_unknown unknown, decide_eq_true_eq]
  rfl

theorem Balanced.add (balanced : d.Balanced) : (d.add x).Balanced := by
  by_cases known : x ∈ d.items
  · rwa [add_of_mem known]
  · have parents : (d.add x).parent = d.parent := funext fun _ => parent_add
    refine ⟨balanced.grounded.add.grounded, fun r member top => ?_, fun y member n r climbs => ?_⟩
    · rw [balanced.grounded.population_add known, weight_add]
      rw [parents] at top
      rcases mem_items_add.mp member with old | rfl
      · have other : x ≠ r := fun same => known (same ▸ old)
        rw [if_neg other, balanced.weight_eq r old top, Nat.add_zero]
      · rw [if_pos rfl, weight_of_unknown known, balanced.grounded.population_of_unknown known]
    · rw [balanced.grounded.population_add known]
      rw [parents] at climbs
      rcases mem_items_add.mp member with old | rfl
      · exact Nat.le_trans (balanced.pow_le y old n r climbs) (Nat.le_add_right _ _)
      · cases climbs with
        | root => simp
        | step lower => exact absurd (mem_items_of_parent_ne lower) known

/-- Ways that get shorter keep the balance. -/
theorem Balanced.setParent (balanced : d.Balanced) (known : y ∈ d.items) :
    (d.setParent y (d.root y)).Balanced := by
  have keeps := balanced.grounded.setParent known
  have old := keeps.mem_items_iff
  refine ⟨keeps.grounded, fun r member top => ?_, fun x member n r climbs => ?_⟩
  · have fixed : d.root r = r := by rw [← keeps.root_eq, Grounded.root_of_parent_eq top]
    have top : d.parent r = r := fixed ▸ balanced.grounded.parent_root r
    rw [weight_setParent, keeps.population_eq, balanced.weight_eq r ((old r).mp member) top]
  · obtain ⟨_, shortcut⟩ := balanced.grounded.climbs_root y
    obtain ⟨m, longer⟩ := balanced.grounded.climbs_root x
    obtain ⟨k, shorter, climbs'⟩ := longer.setParent shortcut
    obtain ⟨rfl, rfl⟩ := climbs.unique climbs'
    rw [keeps.population_eq]
    exact Nat.le_trans (Nat.pow_le_pow_right (by omega) shorter)
      (balanced.pow_le x ((old x).mp member) m _ longer)

theorem Balanced.setParents (balanced : d.Balanced)
    (below : ∀ y ∈ l, y ∈ d.items ∧ d.root y = r) :
    (l.foldl (fun d y => d.setParent y r) d).Balanced := by
  induction l generalizing d with
  | nil => exact balanced
  | cons y l ih =>
      obtain ⟨known, root⟩ := below y List.mem_cons_self
      have keeps := balanced.grounded.setParent known
      have step := balanced.setParent known
      rw [root] at keeps step
      refine ih step fun z later => ?_
      obtain ⟨known, root⟩ := below z (List.mem_cons_of_mem y later)
      exact ⟨(keeps.mem_items z).mpr (.inl known), (keeps.root_eq z).trans root⟩

theorem Balanced.find (balanced : d.Balanced) : (d.find x).2.Balanced := by
  have added := balanced.add (x := x)
  have known : x ∈ (d.add x).items := mem_items_add.mpr (.inr rfl)
  exact added.setParents fun y onWay => added.grounded.trail known onWay

theorem Balanced.findAll (balanced : d.Balanced) : (d.findAll l).2.Balanced := by
  induction l generalizing d with
  | nil => exact balanced
  | cons x l ih => exact ih balanced.find

/-! ### Merging -/

theorem weight_hang :
    (d.hang s r).weight x = if s = x then d.weight s + d.weight r else d.weight x := by
  rw [hang, weight_setParent, weight_put]

/-- The new root has the items of both. -/
theorem Moves.population_top (moves : Moves d e s [r]) (different : r ≠ s) :
    e.population s = d.population s + d.population r := by
  rw [population, population, population, countP_items moves.mem_items]
  simp only [moves.root_eq, List.mem_singleton]
  induction d.items with
  | nil => rfl
  | cons x items ih =>
      simp only [List.countP_cons, ih, decide_eq_true_eq]
      by_cases moved : d.root x = r
      · rw [if_pos moved, if_pos rfl, if_pos moved, if_neg fun same => different (moved ▸ same)]
        omega
      · rw [if_neg moved, if_neg moved]
        omega

theorem Moves.population_of_ne (moves : Moves d e s [r]) (first : q ≠ s) (second : q ≠ r) :
    e.population q = d.population q := by
  rw [population, population, countP_items moves.mem_items]
  refine List.countP_congr fun x _ => ?_
  simp only [moves.root_eq, List.mem_singleton, decide_eq_true_eq]
  by_cases moved : d.root x = r
  · simp [moved, first.symm, second.symm]
  · rw [if_neg moved]

/-- The items of a root that is hung below a heavier one are at least doubled in number. -/
theorem Balanced.hang (balanced : d.Balanced) (top : d.parent s = s) (root : d.parent r = r)
    (different : r ≠ s) (known : s ∈ d.items) (below : r ∈ d.items)
    (lighter : d.weight r ≤ d.weight s) : (d.hang s r).Balanced := by
  have moves := balanced.grounded.hang top root different known below
  have size_s := balanced.weight_eq s known top
  have size_r := balanced.weight_eq r below root
  have size := moves.population_top different
  refine ⟨moves.grounded, fun q member fixed => ?_, fun x member n q climbs => ?_⟩
  · rw [parent_hang] at fixed
    have other : r ≠ q := by
      rintro rfl
      rw [if_pos rfl] at fixed
      exact different fixed.symm
    rw [if_neg other] at fixed
    rw [weight_hang]
    by_cases same : s = q
    · rw [if_pos same, ← same, size, size_s, size_r]
    · rw [if_neg same, moves.population_of_ne (Ne.symm same) (Ne.symm other)]
      exact balanced.weight_eq q ((moves.mem_items q).mp member) fixed
  · obtain ⟨m, before⟩ := balanced.grounded.climbs_root x
    have enough := balanced.pow_le x ((moves.mem_items x).mp member) m _ before
    obtain ⟨rfl, rfl⟩ := climbs.unique (before.hung top root different)
    by_cases moved : d.root x = r
    · rw [if_pos moved, if_pos moved, size, Nat.pow_succ]
      rw [moved] at enough
      omega
    · rw [if_neg moved, if_neg moved]
      by_cases same : d.root x = s
      · rw [same] at enough ⊢
        omega
      · rwa [moves.population_of_ne same moved]

theorem Balanced.hangAll (balanced : d.Balanced) (top : d.parent s = s) (known : s ∈ d.items)
    (roots : ∀ r ∈ l, d.parent r = r ∧ r ≠ s ∧ r ∈ d.items ∧ d.weight r ≤ d.weight s)
    (nodup : l.Nodup) : (l.foldl (fun d r => d.hang s r) d).Balanced := by
  induction l generalizing d with
  | nil => exact balanced
  | cons r l ih =>
      obtain ⟨root, different, below, lighter⟩ := roots r List.mem_cons_self
      obtain ⟨once, nodup⟩ := List.nodup_cons.mp nodup
      have moves := balanced.grounded.hang top root different known below
      refine ih (balanced.hang top root different known below lighter) ?_
        ((moves.mem_items s).mpr known) (fun z later => ?_) nodup
      · rw [parent_hang, if_neg different, top]
      · -- a root that is still to be hung is untouched, and the top has only got heavier
        obtain ⟨root, different, below, lighter⟩ := roots z (List.mem_cons_of_mem r later)
        refine ⟨?_, different, (moves.mem_items z).mpr below, ?_⟩
        · rw [parent_hang, if_neg fun same => once (by rwa [same]), root]
        · rw [weight_hang, weight_hang, if_neg (Ne.symm different), if_pos rfl]
          omega

/-- Whatever is picked is a heaviest one of the roots that are offered. -/
def ChoosesHeaviest (pick : DisjointSets α → α → List α → α) : Prop :=
  Chooses pick ∧ ∀ (d : DisjointSets α) r l, ∀ x ∈ r :: l, d.weight x ≤ d.weight (pick d r l)

theorem weight_le_heaviest : ∀ x ∈ r :: l, d.weight x ≤ d.weight (d.heaviest r l) := by
  rw [heaviest]
  induction l generalizing r with
  | nil => simp
  | cons y l ih =>
      rw [List.foldl_cons]
      intro x member
      split
      · rename_i heavier
        have above := ih (r := y) y List.mem_cons_self
        rcases List.mem_cons.mp member with rfl | later
        · omega
        · exact ih x later
      · rename_i lighter
        have above := ih (r := r) r List.mem_cons_self
        rcases List.mem_cons.mp member with rfl | later
        · exact above
        · rcases List.mem_cons.mp later with rfl | last
          · omega
          · exact ih x (List.mem_cons_of_mem r last)

theorem choosesHeaviest_heaviest :
    ChoosesHeaviest (heaviest : DisjointSets α → α → List α → α) :=
  ⟨chooses_heaviest, fun _ _ _ => weight_le_heaviest⟩

variable {pick : DisjointSets α → α → List α → α} {ops : List (Operation α)} {o : Operation α}

theorem Balanced.mergeBy (chooses : ChoosesHeaviest pick) (balanced : d.Balanced) :
    (d.mergeBy pick l).Balanced := by
  obtain ⟨roots, found⟩ := balanced.grounded.findAll (l := l)
  have looked := balanced.findAll (l := l)
  have nodup : (l.map d.root).eraseDups.Nodup := nodup_eraseDups _
  have root_of_mem : ∀ z ∈ (l.map d.root).eraseDups,
      (d.findAll l).2.parent z = z ∧ z ∈ (d.findAll l).2.items := by
    intro z root
    obtain ⟨x, listed, rfl⟩ := List.mem_map.mp (List.mem_eraseDups.mp root)
    rw [← found.root_eq]
    exact ⟨found.grounded.parent_root x,
      found.grounded.root_mem_items ((found.mem_items x).mpr (.inr listed))⟩
  unfold DisjointSets.mergeBy
  simp only [roots]
  cases distinct : (l.map d.root).eraseDups with
  | nil => exact looked
  | cons r rs =>
      rw [distinct] at nodup root_of_mem
      have picked := chooses.1 (d.findAll l).2 r rs
      obtain ⟨top, known⟩ := root_of_mem _ picked
      refine looked.hangAll top known (fun z other => ?_) (nodup.filter _)
      obtain ⟨listed, different⟩ := List.mem_filter.mp other
      obtain ⟨root, below⟩ := root_of_mem z listed
      exact ⟨root, of_decide_eq_true different, below, chooses.2 _ r rs z listed⟩

/-! ### Histories -/

theorem Balanced.applyBy (chooses : ChoosesHeaviest pick) (balanced : d.Balanced) :
    (d.applyBy pick o).Balanced := by
  cases o with
  | find x => exact balanced.find
  | merge l => exact balanced.mergeBy chooses

theorem balanced_ofList : (ofList l).Balanced := by
  have added : ∀ d : DisjointSets α, d.Balanced → (l.foldl DisjointSets.add d).Balanced := by
    induction l with
    | nil => exact fun d balanced => balanced
    | cons x l ih => exact fun d balanced => ih _ balanced.add
  have empty : (ofList ([] : List α)).Balanced :=
    ⟨grounded_ofList.1, fun x member => absurd member List.not_mem_nil,
      fun x member => absurd member List.not_mem_nil⟩
  exact added _ empty

theorem balanced_applyAllBy (chooses : ChoosesHeaviest pick) :
    ((ofList l).applyAllBy pick ops).Balanced := by
  induction ops using List.reverseRecOn with
  | nil => exact balanced_ofList
  | append_singleton ops o ih =>
      rw [applyAllBy, List.foldl_append]
      exact ih.applyBy chooses

/-- The roots are the items that are their own parents, each once. -/
theorem Grounded.perm_roots (grounded : d.Grounded) :
    (d.items.filter fun r => decide (d.parent r = r)).Perm (d.items.map d.root).eraseDups := by
  refine (List.perm_ext_iff_of_nodup (d.nodes.nodup.filter _) (nodup_eraseDups _)).mpr fun r => ?_
  rw [List.mem_filter, decide_eq_true_iff, List.mem_eraseDups]
  constructor
  · intro ⟨known, top⟩
    exact List.mem_map.mpr ⟨r, known, Grounded.root_of_parent_eq top⟩
  · intro image
    obtain ⟨x, known, rfl⟩ := List.mem_map.mp image
    exact ⟨grounded.root_mem_items known, grounded.parent_root x⟩

/-- The weights of the roots add up to the number of items. -/
theorem Balanced.sum_weights (balanced : d.Balanced) :
    ((d.items.filter fun r => decide (d.parent r = r)).map d.weight).sum = d.items.length := by
  have weights : (d.items.filter fun r => decide (d.parent r = r)).map d.weight =
      (d.items.filter fun r => decide (d.parent r = r)).map d.population := by
    refine List.map_congr_left fun r root => ?_
    obtain ⟨known, top⟩ := List.mem_filter.mp root
    exact balanced.weight_eq r known (of_decide_eq_true top)
  have sizes : d.sets.map List.length = (d.items.map d.root).eraseDups.map d.population := by
    rw [sets, List.map_map]
    exact List.map_congr_left fun r _ => List.countP_eq_length_filter.symm
  rw [weights, (balanced.grounded.perm_roots.map d.population).sum_eq, ← sizes,
    ← List.length_flatten, perm_flatten_sets.length_eq]

/-- After any operations on a list of items, in whatever way merges choose among the heaviest roots,
    a number of steps leads from each item up to a root, and the root's set has at least as many
    items as that power of two. The weight of a root is the number of items from which it is
    reached, and the weights of all roots add up to the number of items. Merges choose in such a
    way. -/
theorem applyAllBy_balanced :
    (∀ pick : DisjointSets α → α → List α → α, ChoosesHeaviest pick →
      ∀ (l : List α) (ops : List (Operation α)),
        let d := (ofList l).applyAllBy pick ops
        (∀ x ∈ d.items, ∃ n r, Climbs d.parent n x r ∧ r ∈ d.items ∧ d.parent r = r ∧
          2 ^ n ≤ (d.setOf r).length) ∧
        (∀ r ∈ d.items, d.parent r = r → d.weight r = (d.setOf r).length ∧ (d.setOf r).Nodup ∧
          ∀ y, y ∈ d.setOf r ↔ y ∈ d.items ∧ ∃ n, Climbs d.parent n y r) ∧
        ((d.items.filter fun r => decide (d.parent r = r)).map d.weight).sum = d.items.length) ∧
    ChoosesHeaviest (heaviest : DisjointSets α → α → List α → α) ∧
    ∀ (d : DisjointSets α) (ops : List (Operation α)),
      d.applyAll ops = d.applyAllBy heaviest ops := by
  refine ⟨fun pick chooses l ops => ?_, choosesHeaviest_heaviest, fun _ _ => rfl⟩
  intro d
  have balanced : d.Balanced := balanced_applyAllBy chooses
  have grounded := balanced.grounded
  refine ⟨fun x known => ?_, fun r known top => ⟨?_, d.nodes.nodup.filter _, fun y => ?_⟩,
    balanced.sum_weights⟩
  · obtain ⟨n, climbs⟩ := grounded.climbs_root x
    have top := grounded.parent_root x
    refine ⟨n, d.root x, climbs, grounded.root_mem_items known, top, ?_⟩
    rw [length_setOf, Grounded.root_of_parent_eq top]
    exact balanced.pow_le x known n _ climbs
  · rw [length_setOf, Grounded.root_of_parent_eq top, balanced.weight_eq r known top]
  · rw [setOf, List.mem_filter, decide_eq_true_iff, Grounded.root_of_parent_eq top]
    refine and_congr_right fun _ => ⟨fun same => same ▸ grounded.climbs_root y, ?_⟩
    rintro ⟨n, climbs⟩
    exact climbs.root_eq

/-- Two pairs that are merged through their roots leave an item two steps down in a set of four. -/
theorem applyAllBy_balanced_pairs :
    let d := (ofList [0, 1, 2, 3, 4]).applyAllBy heaviest
      [.merge [0, 1], .merge [3, 2], .merge [0, 3]]
    ChoosesHeaviest (heaviest : DisjointSets Nat → Nat → List Nat → Nat) ∧
      Climbs d.parent 2 2 0 ∧ 2 ^ 2 ≤ (d.setOf 0).length ∧ d.weight 0 = (d.setOf 0).length ∧
      d.weight 0 = 4 := by
  intro d
  obtain ⟨all, chooses, _⟩ := applyAllBy_balanced (α := Nat)
  obtain ⟨ways, roots, _⟩ := all heaviest chooses [0, 1, 2, 3, 4]
    [.merge [0, 1], .merge [3, 2], .merge [0, 3]]
  have down : Climbs d.parent 2 2 0 :=
    .step (by decide +kernel) (.step (by decide +kernel) (.root (by decide +kernel)))
  obtain ⟨n, r, climbs, _, _, enough⟩ := ways 2 (by decide +kernel)
  obtain ⟨rfl, rfl⟩ := down.unique climbs
  exact ⟨chooses, down, enough, (roots 0 (by decide +kernel) (by decide +kernel)).1,
    by decide +kernel⟩

end Automata.DisjointSets
