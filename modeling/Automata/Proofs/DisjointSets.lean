import Automata.DisjointSets
import Automata.Proofs.Table
import Mathlib.Data.List.Perm.Subperm

/-! # Roots of disjoint sets

From every item some steps lead up to a root. Looking items up shortens the ways but leaves all
roots as they are, and a merge gives the merged sets one root in common.
-/

namespace Automata.DisjointSets

universe u

variable {α : Type u}

/-- A number of steps lead from an item up to a root. -/
inductive Climbs (parent : α → α) : Nat → α → α → Prop where
  | root {r : α} : parent r = r → Climbs parent 0 r r
  | step {n : Nat} {x r : α} :
      parent x ≠ x → Climbs parent n (parent x) r → Climbs parent (n + 1) x r

namespace Climbs

variable {f g : α → α} {m n : Nat} {x y r s t : α}

theorem parent_eq (climbs : Climbs f n x r) : f r = r := by
  induction climbs with
  | root top => exact top
  | step _ _ ih => exact ih

theorem unique (climbs : Climbs f m x r) (other : Climbs f n x s) : m = n ∧ r = s := by
  induction climbs generalizing n with
  | root top =>
      cases other with
      | root => exact ⟨rfl, rfl⟩
      | step lower => exact absurd top lower
  | step lower _ ih =>
      cases other with
      | root top => exact absurd top lower
      | step _ rest =>
          obtain ⟨rfl, rfl⟩ := ih rest
          exact ⟨rfl, rfl⟩

/-- An item may point to its root instead of its parent, which makes no way longer. -/
theorem redirect (shortcut : Climbs f m y r) (here : g y = r) (elsewhere : ∀ x, x ≠ y → g x = f x)
    (climbs : Climbs f n x s) : ∃ k ≤ n, Climbs g k x s := by
  have top : g r = r := by
    by_cases same : r = y
    · rw [same, here, same]
    · rw [elsewhere r same, shortcut.parent_eq]
  have at_y : ∃ k ≤ m, Climbs g k y r := by
    cases shortcut with
    | root => exact ⟨0, Nat.le_refl 0, .root top⟩
    | step lower rest =>
        have other : r ≠ y := fun same => lower (same ▸ rest.parent_eq)
        refine ⟨1, by omega, .step ?_ ?_⟩
        · rwa [here]
        · rw [here]
          exact .root top
  induction climbs with
  | @root x fixed =>
      by_cases same : x = y
      · subst same
        obtain ⟨rfl, rfl⟩ := shortcut.unique (.root fixed)
        exact at_y
      · exact ⟨0, Nat.le_refl 0, .root (by rw [elsewhere x same, fixed])⟩
  | @step n x s lower rest ih =>
      by_cases same : x = y
      · subst same
        obtain ⟨rfl, rfl⟩ := shortcut.unique (.step lower rest)
        exact at_y
      · obtain ⟨k, shorter, climbs⟩ := ih
        rw [← elsewhere x same] at lower climbs
        exact ⟨k + 1, by omega, .step lower climbs⟩

/-- A root that points to another root gives up its items to it, each one step further down. -/
theorem hang [DecidableEq α] (top : f t = t) (different : r ≠ t) (here : g r = t)
    (elsewhere : ∀ x, x ≠ r → g x = f x) (root : f r = r) (climbs : Climbs f n x s) :
    Climbs g (if s = r then n + 1 else n) x (if s = r then t else s) := by
  have top : g t = t := by rw [elsewhere t (Ne.symm different), top]
  have at_r : Climbs g 1 r t := by
    apply Climbs.step
    · rw [here]
      exact Ne.symm different
    · rw [here]
      exact .root top
  induction climbs with
  | @root x fixed =>
      by_cases same : x = r
      · rw [if_pos same, if_pos same, same]
        exact at_r
      · rw [if_neg same, if_neg same]
        exact .root (by rw [elsewhere x same, fixed])
  | @step n x s lower rest ih =>
      have same : x ≠ r := fun same => lower (same ▸ root)
      rw [← elsewhere x same] at lower ih
      have further := Climbs.step lower ih
      split at further <;> simp_all

end Climbs

variable [DecidableEq α] {d e : DisjointSets α} {n bound : Nat} {x y z r s : α} {l : List α}

theorem parent_put {p : α} {w : Nat} :
    (⟨d.nodes.put y ⟨p, w⟩⟩ : DisjointSets α).parent x = if y = x then p else d.parent x := by
  rw [parent, Table.get?_put]
  by_cases here : y = x
  · rw [if_pos here, if_pos here]
  · rw [if_neg here, if_neg here]
    rfl

theorem mem_items_put {p : α} {w : Nat} :
    x ∈ (⟨d.nodes.put y ⟨p, w⟩⟩ : DisjointSets α).items ↔ x = y ∨ x ∈ d.items :=
  Table.mem_keys_putIn

/-- An item that is no root is known. -/
theorem mem_items_of_parent_ne (lower : d.parent x ≠ x) : x ∈ d.items := by
  refine Table.mem_keys_iff.mpr ?_
  cases node : d.nodes.get? x with
  | none => simp [parent, node] at lower
  | some v => exact ⟨v, rfl⟩

theorem Climbs.climb_eq (climbs : Climbs d.parent n x r) (enough : n ≤ bound) :
    d.climb bound x = r := by
  induction climbs generalizing bound with
  | root top =>
      cases bound with
      | zero => rfl
      | succ bound => rw [climb, if_pos top]
  | step lower _ ih =>
      cases bound with
      | zero => exact absurd enough (Nat.not_succ_le_zero _)
      | succ bound =>
          rw [climb, if_neg lower]
          exact ih (Nat.le_of_succ_le_succ enough)

/-- The items on the way to a root are different, so that no way is longer than there are items. -/
theorem Climbs.le_size (climbs : Climbs d.parent n x r) : n ≤ d.nodes.size := by
  have way : ∃ l : List α, l.length = n ∧ l.Nodup ∧
      ∀ y ∈ l, y ∈ d.items ∧ ∃ m s, 0 < m ∧ m ≤ n ∧ Climbs d.parent m y s := by
    induction climbs with
    | root => exact ⟨[], rfl, .nil, by simp⟩
    | @step n x s lower rest ih =>
        obtain ⟨l, length, nodup, all⟩ := ih
        have here : Climbs d.parent (n + 1) x s := .step lower rest
        refine ⟨x :: l, by simp [length], List.nodup_cons.mpr ⟨fun member => ?_, nodup⟩, ?_⟩
        · obtain ⟨_, m, _, _, shorter, climbs⟩ := all x member
          have := (climbs.unique here).1
          omega
        · intro y member
          rcases List.mem_cons.mp member with rfl | later
          · exact ⟨mem_items_of_parent_ne lower, n + 1, s, by omega, by omega, here⟩
          · obtain ⟨known, m, t, some, shorter, climbs⟩ := all y later
            exact ⟨known, m, t, some, by omega, climbs⟩
  obtain ⟨l, length, nodup, all⟩ := way
  have fits := (List.subperm_of_subset nodup fun y member => (all y member).1).length_le
  rw [length] at fits
  simpa [items, Table.keys, Table.size] using fits

/-- Every item has a root above it, and parents of known items are known. -/
structure Grounded (d : DisjointSets α) : Prop where
  climbs : ∀ x, ∃ n r, Climbs d.parent n x r
  closed : ∀ x ∈ d.items, d.parent x ∈ d.items

theorem Climbs.root_eq (climbs : Climbs d.parent n x r) : d.root x = r :=
  climbs.climb_eq climbs.le_size

namespace Grounded

theorem climbs_root (grounded : d.Grounded) (x : α) : ∃ n, Climbs d.parent n x (d.root x) := by
  obtain ⟨n, r, climbs⟩ := grounded.climbs x
  exact ⟨n, climbs.root_eq ▸ climbs⟩

theorem parent_root (grounded : d.Grounded) (x : α) : d.parent (d.root x) = d.root x := by
  obtain ⟨_, climbs⟩ := grounded.climbs_root x
  exact climbs.parent_eq

theorem root_of_parent_eq (top : d.parent r = r) : d.root r = r := (Climbs.root top).root_eq

theorem root_parent (grounded : d.Grounded) (x : α) : d.root (d.parent x) = d.root x := by
  obtain ⟨n, climbs⟩ := grounded.climbs_root x
  generalize d.root x = r at climbs
  cases climbs with
  | root top => rw [top, root_of_parent_eq top]
  | step _ rest => exact rest.root_eq

theorem root_mem_items (grounded : d.Grounded) (known : x ∈ d.items) : d.root x ∈ d.items := by
  obtain ⟨n, climbs⟩ := grounded.climbs_root x
  generalize d.root x = r at climbs
  induction climbs with
  | root => exact known
  | step _ _ ih => exact ih (grounded.closed _ known)

end Grounded

/-- The second partition knows some more items, and all roots are the same. -/
structure Keeps (d e : DisjointSets α) (l : List α) : Prop where
  grounded : e.Grounded
  root_eq : ∀ x, e.root x = d.root x
  mem_items : ∀ x, x ∈ e.items ↔ x ∈ d.items ∨ x ∈ l

theorem get?_eq_none (unknown : x ∉ d.items) : d.nodes.get? x = none := by
  cases found : d.nodes.get? x with
  | none => rfl
  | some node => exact absurd (Table.mem_keys_iff.mpr ⟨node, found⟩) unknown

theorem add_of_mem (known : x ∈ d.items) : d.add x = d := by
  obtain ⟨node, found⟩ := Table.mem_keys_iff.mp known
  rw [DisjointSets.add, found]

theorem items_add (unknown : x ∉ d.items) : (d.add x).items = d.items ++ [x] := by
  rw [DisjointSets.add, get?_eq_none unknown]
  show (Table.putIn x _ d.nodes.entries).map Prod.fst = _
  rw [Table.putIn_of_not_mem unknown, List.map_append]
  rfl

theorem mem_items_add : y ∈ (d.add x).items ↔ y ∈ d.items ∨ y = x := by
  by_cases known : x ∈ d.items
  · rw [add_of_mem known]
    refine ⟨.inl, fun either => either.elim id ?_⟩
    rintro rfl
    exact known
  · rw [items_add known, List.mem_append, List.mem_singleton]

/-- An item that is added is a root, as it counted as one before. -/
theorem parent_add : (d.add x).parent y = d.parent y := by
  by_cases known : x ∈ d.items
  · rw [add_of_mem known]
  · rw [DisjointSets.add, get?_eq_none known, parent_put]
    by_cases here : x = y
    · rw [if_pos here, parent, ← here, get?_eq_none known]
    · rw [if_neg here]

theorem Grounded.add (grounded : d.Grounded) : Keeps d (d.add x) [x] := by
  have climbs (y : α) : ∃ n, Climbs (d.add x).parent n y (d.root y) := by
    have same : (d.add x).parent = d.parent := funext fun _ => parent_add
    rw [same]
    exact grounded.climbs_root y
  refine ⟨⟨fun y => ⟨_, _, (climbs y).choose_spec⟩, fun y known => ?_⟩, fun y => ?_, fun y => ?_⟩
  · rw [mem_items_add] at known
    rw [parent_add, mem_items_add]
    by_cases lower : d.parent y = y
    · rwa [lower]
    · exact .inl (grounded.closed y (mem_items_of_parent_ne lower))
  · obtain ⟨_, climbs⟩ := climbs y
    exact climbs.root_eq
  · rw [mem_items_add, List.mem_singleton]

theorem Keeps.trans {f : DisjointSets α} {m : List α} (first : Keeps d e l) (second : Keeps e f m) :
    Keeps d f (l ++ m) where
  grounded := second.grounded
  root_eq x := (second.root_eq x).trans (first.root_eq x)
  mem_items x := by rw [second.mem_items, first.mem_items, List.mem_append, or_assoc]

/-! ### Looking up -/

theorem parent_setParent : (d.setParent y s).parent x = if y = x then s else d.parent x :=
  parent_put

theorem Climbs.setParent {m : Nat} (climbs : Climbs d.parent n x s)
    (shortcut : Climbs d.parent m y r) : ∃ k ≤ n, Climbs (d.setParent y r).parent k x s := by
  refine shortcut.redirect ?_ (fun z other => ?_) climbs
  · rw [parent_setParent, if_pos rfl]
  · rw [parent_setParent, if_neg (Ne.symm other)]

/-- A known item may point to its root. -/
theorem Grounded.setParent (grounded : d.Grounded) (known : y ∈ d.items) :
    Keeps d (d.setParent y (d.root y)) [] := by
  have items (x : α) : x ∈ (d.setParent y (d.root y)).items ↔ x ∈ d.items := by
    rw [DisjointSets.setParent, mem_items_put]
    constructor
    · intro either
      rcases either with rfl | old
      · exact known
      · exact old
    · exact .inr
  have climbs (x : α) : ∃ n, Climbs (d.setParent y (d.root y)).parent n x (d.root x) := by
    obtain ⟨_, shortcut⟩ := grounded.climbs_root y
    obtain ⟨_, climbs⟩ := grounded.climbs_root x
    obtain ⟨k, _, climbs⟩ := climbs.setParent shortcut
    exact ⟨k, climbs⟩
  refine ⟨⟨fun x => ⟨_, _, (climbs x).choose_spec⟩, ?_⟩, fun x => ?_, fun x => ?_⟩
  · intro x member
    rw [items] at member ⊢
    rw [parent_setParent]
    split
    · exact grounded.root_mem_items known
    · exact grounded.closed x member
  · obtain ⟨_, climbs⟩ := climbs x
    exact climbs.root_eq
  · rw [items]
    simp

theorem Grounded.setParents (grounded : d.Grounded)
    (below : ∀ y ∈ l, y ∈ d.items ∧ d.root y = r) :
    Keeps d (l.foldl (fun d y => d.setParent y r) d) [] := by
  induction l generalizing d with
  | nil => exact ⟨grounded, fun _ => rfl, by simp⟩
  | cons y l ih =>
      obtain ⟨known, root⟩ := below y List.mem_cons_self
      have step := grounded.setParent known
      rw [root] at step
      rw [List.foldl_cons]
      refine step.trans (ih step.grounded fun z later => ?_)
      obtain ⟨known, root⟩ := below z (List.mem_cons_of_mem y later)
      exact ⟨(step.mem_items z).mpr (.inl known), (step.root_eq z).trans root⟩

theorem Grounded.trail (grounded : d.Grounded) (known : x ∈ d.items) (onWay : y ∈ d.trail bound x) :
    y ∈ d.items ∧ d.root y = d.root x := by
  induction bound generalizing x with
  | zero =>
      obtain rfl := List.mem_singleton.mp onWay
      exact ⟨known, rfl⟩
  | succ bound ih =>
      rw [DisjointSets.trail] at onWay
      split at onWay
      · obtain rfl := List.mem_singleton.mp onWay
        exact ⟨known, rfl⟩
      · rcases List.mem_cons.mp onWay with rfl | higher
        · exact ⟨known, rfl⟩
        · obtain ⟨known, root⟩ := ih (grounded.closed x known) higher
          exact ⟨known, root.trans (grounded.root_parent x)⟩

theorem Grounded.find (grounded : d.Grounded) :
    (d.find x).1 = d.root x ∧ Keeps d (d.find x).2 [x] := by
  have added := grounded.add (x := x)
  have known : x ∈ (d.add x).items := (added.mem_items x).mpr (.inr List.mem_cons_self)
  refine ⟨added.root_eq x, added.trans (m := []) ?_⟩
  exact added.grounded.setParents fun y onWay => added.grounded.trail known onWay

theorem Grounded.findAll (grounded : d.Grounded) :
    (d.findAll l).1 = l.map d.root ∧ Keeps d (d.findAll l).2 l := by
  induction l generalizing d with
  | nil => exact ⟨rfl, grounded, fun _ => rfl, by simp [DisjointSets.findAll]⟩
  | cons x l ih =>
      obtain ⟨root, found⟩ := grounded.find (x := x)
      obtain ⟨roots, rest⟩ := ih found.grounded
      refine ⟨?_, found.trans rest⟩
      rw [List.map_cons, ← root, ← funext found.root_eq, ← roots]
      rfl

/-! ### Merging -/

theorem nodup_eraseDups : ∀ l : List α, l.eraseDups.Nodup
  | [] => .nil
  | x :: l => by
      rw [List.eraseDups_cons]
      refine List.nodup_cons.mpr ⟨fun member => ?_, nodup_eraseDups _⟩
      simpa using (List.mem_filter.mp (List.mem_eraseDups.mp member)).2
termination_by l => l.length
decreasing_by exact Nat.lt_succ_of_le (List.length_filter_le _ _)

theorem heaviest_mem : d.heaviest r l ∈ r :: l := by
  rw [heaviest]
  induction l generalizing r with
  | nil => exact List.mem_cons_self
  | cons x l ih =>
      rw [List.foldl_cons]
      split
      · exact List.mem_cons_of_mem r ih
      · rcases List.mem_cons.mp (@ih r) with same | later
        · rw [same]
          exact List.mem_cons_self
        · exact List.mem_cons_of_mem r (List.mem_cons_of_mem x later)

/-- The second partition has the same items, and items of some sets got a new root. -/
structure Moves (d e : DisjointSets α) (top : α) (l : List α) : Prop where
  grounded : e.Grounded
  root_eq : ∀ x, e.root x = if d.root x ∈ l then top else d.root x
  mem_items : ∀ x, x ∈ e.items ↔ x ∈ d.items

theorem parent_hang :
    (d.hang s r).parent x = if r = x then s else d.parent x := by
  rw [hang, parent_setParent, parent_put]
  by_cases here : s = x
  · rw [if_pos here, ← here]
  · rw [if_neg here]

theorem Climbs.hung (climbs : Climbs d.parent n x z) (top : d.parent s = s)
    (root : d.parent r = r) (different : r ≠ s) :
    Climbs (d.hang s r).parent (if z = r then n + 1 else n) x (if z = r then s else z) := by
  refine climbs.hang top different ?_ (fun y other => ?_) root
  · rw [parent_hang, if_pos rfl]
  · rw [parent_hang, if_neg (Ne.symm other)]

theorem Grounded.hang (grounded : d.Grounded) (top : d.parent s = s) (root : d.parent r = r)
    (different : r ≠ s) (known : s ∈ d.items) (below : r ∈ d.items) :
    Moves d (d.hang s r) s [r] := by
  have items (x : α) : x ∈ (d.hang s r).items ↔ x ∈ d.items := by
    rw [DisjointSets.hang, DisjointSets.setParent, mem_items_put, mem_items_put]
    constructor
    · intro either
      rcases either with rfl | rfl | old
      · exact below
      · exact known
      · exact old
    · exact fun old => .inr (.inr old)
  have climbs (x : α) :
      ∃ n, Climbs (d.hang s r).parent n x (if d.root x ∈ [r] then s else d.root x) := by
    obtain ⟨_, climbs⟩ := grounded.climbs_root x
    simp only [List.mem_singleton]
    exact ⟨_, climbs.hung top root different⟩
  refine ⟨⟨fun x => ⟨_, _, (climbs x).choose_spec⟩, ?_⟩, fun x => ?_, items⟩
  · intro x member
    rw [items] at member ⊢
    rw [parent_hang]
    split
    · exact known
    · exact grounded.closed x member
  · obtain ⟨_, climbs⟩ := climbs x
    exact climbs.root_eq

theorem Grounded.hangAll (grounded : d.Grounded) (top : d.parent s = s) (known : s ∈ d.items)
    (roots : ∀ r ∈ l, d.parent r = r ∧ r ≠ s ∧ r ∈ d.items) (nodup : l.Nodup) :
    Moves d (l.foldl (fun d r => d.hang s r) d) s l := by
  induction l generalizing d with
  | nil => exact ⟨grounded, by simp, by simp⟩
  | cons r l ih =>
      obtain ⟨root, different, below⟩ := roots r List.mem_cons_self
      obtain ⟨once, nodup⟩ := List.nodup_cons.mp nodup
      have step := grounded.hang top root different known below
      have rest : Moves (d.hang s r) (l.foldl (fun d r => d.hang s r) (d.hang s r)) s l := by
        refine ih step.grounded ?_ ((step.mem_items s).mpr known) (fun z later => ?_) nodup
        · rw [parent_hang, if_neg different, top]
        · obtain ⟨root, different, below⟩ := roots z (List.mem_cons_of_mem r later)
          refine ⟨?_, different, (step.mem_items z).mpr below⟩
          rw [parent_hang, if_neg fun same => once (by rwa [same]), root]
      have outside : s ∉ l := fun later => (roots s (List.mem_cons_of_mem r later)).2.1 rfl
      refine ⟨rest.grounded, fun x => ?_, fun x => (rest.mem_items x).trans (step.mem_items x)⟩
      rw [List.foldl_cons, rest.root_eq, step.root_eq]
      simp only [List.mem_cons, List.not_mem_nil, or_false]
      by_cases here : d.root x = r
      · simp [here, outside]
      · simp [here]

/-- All roots of a list but one are hung below that one. -/
theorem Grounded.hangOthers (grounded : d.Grounded) (nodup : l.Nodup) (member : s ∈ l)
    (roots : ∀ r ∈ l, d.parent r = r ∧ r ∈ d.items) :
    Moves d ((l.filter fun r => decide (r ≠ s)).foldl (fun d r => d.hang s r) d) s l := by
  have others (r : α) : r ∈ l.filter (fun r => decide (r ≠ s)) ↔ r ∈ l ∧ r ≠ s := by
    rw [List.mem_filter, decide_eq_true_eq]
  have moved := grounded.hangAll (roots s member).1 (roots s member).2
    (fun r other => by
      obtain ⟨root, different⟩ := (others r).mp other
      exact ⟨(roots r root).1, different, (roots r root).2⟩)
    (nodup.filter _)
  refine ⟨moved.grounded, fun x => ?_, moved.mem_items⟩
  rw [moved.root_eq]
  by_cases same : d.root x = s
  · simp [same, member]
  · simp only [others, same, ne_eq, not_false_eq_true, and_true]

/-- Items share a root if they did so before, or if the roots of both were moved. -/
theorem Moves.root_eq_iff (moves : Moves d e s l) (member : s ∈ l) :
    e.root x = e.root y ↔ d.root x = d.root y ∨ (d.root x ∈ l ∧ d.root y ∈ l) := by
  rw [moves.root_eq, moves.root_eq]
  by_cases first : d.root x ∈ l
  · by_cases second : d.root y ∈ l
    · rw [if_pos first, if_pos second]
      exact ⟨fun _ => .inr ⟨first, second⟩, fun _ => rfl⟩
    · rw [if_pos first, if_neg second]
      constructor
      · exact fun same => absurd (same ▸ member) second
      · intro either
        rcases either with same | both
        · exact absurd (same ▸ first) second
        · exact absurd both.2 second
  · by_cases second : d.root y ∈ l
    · rw [if_neg first, if_pos second]
      constructor
      · exact fun same => absurd (same.symm ▸ member) first
      · intro either
        rcases either with same | both
        · exact absurd (same ▸ second) first
        · exact absurd both.1 first
    · rw [if_neg first, if_neg second]
      exact ⟨.inl, fun either => either.elim id fun both => absurd both.1 first⟩

/-- Whatever is picked is one of the roots that are offered. -/
def Chooses (pick : DisjointSets α → α → List α → α) : Prop := ∀ d r l, pick d r l ∈ r :: l

theorem chooses_heaviest : Chooses (heaviest : DisjointSets α → α → List α → α) :=
  fun _ _ _ => heaviest_mem

/-- After a merge two items share their root if they did so before, or if both share one with a
    merged item. It does not matter which root is picked. -/
theorem Grounded.mergeBy {pick : DisjointSets α → α → List α → α} (chooses : Chooses pick)
    (grounded : d.Grounded) :
    (d.mergeBy pick l).Grounded ∧ (∀ x, x ∈ (d.mergeBy pick l).items ↔ x ∈ d.items ∨ x ∈ l) ∧
      ∀ x y, (d.mergeBy pick l).root x = (d.mergeBy pick l).root y ↔
        d.root x = d.root y ∨ (d.root x ∈ l.map d.root ∧ d.root y ∈ l.map d.root) := by
  obtain ⟨roots, found⟩ := grounded.findAll (l := l)
  have mem_roots (x : α) : x ∈ (l.map d.root).eraseDups ↔ x ∈ l.map d.root :=
    List.mem_eraseDups
  have nodup : (l.map d.root).eraseDups.Nodup := nodup_eraseDups _
  unfold DisjointSets.mergeBy
  simp only [roots]
  cases distinct : (l.map d.root).eraseDups with
  | nil =>
      rw [distinct] at mem_roots
      refine ⟨found.grounded, found.mem_items, fun x y => ?_⟩
      simp only [found.root_eq, ← mem_roots]
      simp
  | cons r rs =>
      rw [distinct] at mem_roots nodup
      have top := chooses (d.findAll l).2 r rs
      have moved := found.grounded.hangOthers nodup top fun z root => by
        obtain ⟨x, listed, rfl⟩ := List.mem_map.mp ((mem_roots z).mp root)
        rw [← found.root_eq]
        exact ⟨found.grounded.parent_root x,
          found.grounded.root_mem_items ((found.mem_items x).mpr (.inr listed))⟩
      refine ⟨moved.grounded, fun x => (moved.mem_items x).trans (found.mem_items x), fun x y => ?_⟩
      have shared := moved.root_eq_iff (x := x) (y := y) top
      rwa [found.root_eq, found.root_eq, mem_roots, mem_roots] at shared

theorem grounded_ofList : (ofList l).Grounded ∧ (∀ x, (ofList l).root x = x) ∧
    ∀ x, x ∈ (ofList l).items ↔ x ∈ l := by
  have added : ∀ d : DisjointSets α, d.Grounded → Keeps d (l.foldl DisjointSets.add d) l := by
    induction l with
    | nil => exact fun d grounded => ⟨grounded, fun _ => rfl, by simp⟩
    | cons x l ih =>
        intro d grounded
        have step := grounded.add (x := x)
        exact step.trans (ih _ step.grounded)
  have apart (x : α) : (empty : DisjointSets α).parent x = x := rfl
  have start : (empty : DisjointSets α).Grounded :=
    ⟨fun x => ⟨0, x, .root (apart x)⟩, fun x member => absurd member List.not_mem_nil⟩
  have all := added empty start
  refine ⟨all.grounded, fun x => ?_, fun x => ?_⟩
  · exact (all.root_eq x).trans (Grounded.root_of_parent_eq (apart x))
  · refine (all.mem_items x).trans ⟨fun either => ?_, .inr⟩
    rcases either with old | listed
    · exact absurd old List.not_mem_nil
    · exact listed

/-- Merging pairs of equivalent items puts only equivalent items into one set, and the items of
    every pair get one root. -/
theorem Grounded.mergePairs {pick : DisjointSets α → α → List α → α} (chooses : Chooses pick)
    {R : α → α → Prop} (equivalence : Equivalence R) {pairs : List (α × α)}
    (grounded : d.Grounded) (sound : ∀ x y, d.root x = d.root y → R x y)
    (related : ∀ k ∈ pairs, R k.1 k.2) (known : ∀ k ∈ pairs, k.1 ∈ d.items ∧ k.2 ∈ d.items) :
    let e := pairs.foldl (fun sets k => sets.mergeBy pick [k.1, k.2]) d
    e.Grounded ∧ (∀ x, x ∈ e.items ↔ x ∈ d.items) ∧ (∀ x y, e.root x = e.root y → R x y) ∧
      (∀ x y, d.root x = d.root y → e.root x = e.root y) ∧
      ∀ k ∈ pairs, e.root k.1 = e.root k.2 := by
  induction pairs generalizing d with
  | nil => exact ⟨grounded, fun _ => Iff.rfl, sound, fun _ _ same => same, by simp⟩
  | cons k pairs ih =>
      obtain ⟨merged, items, root⟩ := grounded.mergeBy chooses (l := [k.1, k.2])
      have here := related k List.mem_cons_self
      have above (x : α) (member : d.root x ∈ [k.1, k.2].map d.root) : R x k.1 := by
        simp only [List.map_cons, List.map_nil, List.mem_cons, List.not_mem_nil, or_false] at member
        rcases member with first | second
        · exact sound _ _ first
        · exact equivalence.trans (sound _ _ second) (equivalence.symm here)
      have items (x : α) : x ∈ (d.mergeBy pick [k.1, k.2]).items ↔ x ∈ d.items := by
        rw [items]
        refine ⟨fun either => ?_, .inl⟩
        obtain ⟨first, second⟩ := known k List.mem_cons_self
        rcases either with old | new
        · exact old
        · rcases List.mem_pair.mp new with rfl | rfl
          · exact first
          · exact second
      obtain ⟨done, items', sound', kept, pairs⟩ := ih merged
        (fun x y same => by
          rcases (root x y).mp same with old | both
          · exact sound x y old
          · exact equivalence.trans (above x both.1) (equivalence.symm (above y both.2)))
        (fun j later => related j (List.mem_cons_of_mem k later))
        (fun j later => by
          rw [items, items]
          exact known j (List.mem_cons_of_mem k later))
      refine ⟨done, fun x => (items' x).trans (items x), sound',
        fun x y same => kept x y ((root x y).mpr (.inl same)), fun j member => ?_⟩
      rcases List.mem_cons.mp member with rfl | later
      · exact kept _ _ ((root _ _).mpr (.inr (by simp)))
      · exact pairs j later

/-! ### Sets -/

/-- The items that share a root with an item. -/
def setOf (d : DisjointSets α) (x : α) : List α :=
  d.items.filter fun y => decide (d.root y = d.root x)

/-- A set of a partition consists of all the items that share a root with one of them. -/
theorem mem_sets : l ∈ d.sets ↔
    ∃ x ∈ d.items, l = d.setOf x := by
  rw [sets, List.mem_map]
  constructor
  · intro ⟨r, root, same⟩
    obtain ⟨x, known, rfl⟩ := List.mem_map.mp (List.mem_eraseDups.mp root)
    exact ⟨x, known, same.symm⟩
  · intro ⟨x, known, same⟩
    exact ⟨d.root x, List.mem_eraseDups.mpr (List.mem_map.mpr ⟨x, known, rfl⟩), same.symm⟩

end Automata.DisjointSets
