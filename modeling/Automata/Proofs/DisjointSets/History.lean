import Automata.DisjointSets.History
import Automata.Proofs.DisjointSets
import Mathlib.Data.List.Dedup
import Mathlib.Data.List.Induction

/-! # What a history of operations amounts to

After any list of lookups and merges, two items have one root exactly when they are joined,
whichever roots the merges let stay. The sets are made by further lookups, which leave all roots
where they are.
-/

namespace Automata.DisjointSets

universe u

variable {α : Type u} [DecidableEq α]
variable {d : DisjointSets α} {x y : α} {l done : List α} {o : Operation α}
  {ops : List (Operation α)} {pick : DisjointSets α → α → List α → α}

/-- A partition knows the items of a list and of some operations, and its roots tell apart what the
    operations have not joined. -/
structure Follows (d : DisjointSets α) (l : List α) (ops : List (Operation α)) : Prop where
  grounded : d.Grounded
  mem_items : ∀ x, x ∈ d.items ↔ x ∈ l ∨ ∃ o ∈ ops, x ∈ o.items
  root_eq_iff : ∀ x y, d.root x = d.root y ↔ Joined ops x y

omit [DecidableEq α] in
/-- What is joined is alike under every equivalence that relates the items of each merge. -/
theorem Joined.related {R : α → α → Prop} (equivalence : Equivalence R)
    (merges : ∀ l, Operation.merge l ∈ ops → ∀ x ∈ l, ∀ y ∈ l, R x y) (joined : Joined ops x y) :
    R x y := by
  induction joined with
  | merged listed first second => exact merges _ listed _ first _ second
  | refl => exact equivalence.refl _
  | symm _ ih => exact equivalence.symm ih
  | trans _ _ ih₁ ih₂ => exact equivalence.trans ih₁ ih₂

theorem follows_ofList : Follows (ofList l) l [] := by
  obtain ⟨grounded, root, items⟩ := grounded_ofList (l := l)
  refine ⟨grounded, fun x => by simp [items], fun x y => ?_⟩
  rw [root, root]
  constructor
  · rintro rfl
    exact .refl
  · exact Joined.related eq_equivalence (by simp)

/-- Each operation adds its items, and a merge joins them. -/
theorem Follows.applyBy (chooses : Chooses pick) (follows : Follows d l ops) :
    Follows (d.applyBy pick o) l (ops ++ [o]) := by
  have more (o' : Operation α) (old : o' ∈ ops) : o' ∈ ops ++ [o] := List.mem_append_left _ old
  cases o with
  | find x =>
      obtain ⟨_, found⟩ := follows.grounded.find (x := x)
      refine ⟨found.grounded, fun y => ?_, fun y z => ?_⟩
      · show y ∈ (d.find x).2.items ↔ _
        rw [found.mem_items, follows.mem_items]
        simp [Operation.items, or_and_right, exists_or, or_assoc]
      · show (d.find x).2.root y = (d.find x).2.root z ↔ _
        rw [found.root_eq, found.root_eq, follows.root_eq_iff]
        refine ⟨fun joined => joined.mono more, fun joined => ?_⟩
        refine joined.related ⟨fun _ => .refl, .symm, .trans⟩ fun m listed u first v second => ?_
        exact .merged (by simpa using listed) first second
  | merge m =>
      obtain ⟨grounded, items, root⟩ := follows.grounded.mergeBy chooses (l := m)
      refine ⟨grounded, fun y => ?_, fun y z => ?_⟩
      · show y ∈ (d.mergeBy pick m).items ↔ _
        rw [items, follows.mem_items]
        simp [Operation.items, or_and_right, exists_or, or_assoc]
      · show (d.mergeBy pick m).root y = (d.mergeBy pick m).root z ↔ _
        constructor
        · intro same
          rcases (root y z).mp same with old | both
          · exact ((follows.root_eq_iff y z).mp old).mono more
          · obtain ⟨u, first, same_u⟩ := List.mem_map.mp both.1
            obtain ⟨v, second, same_v⟩ := List.mem_map.mp both.2
            have here : Joined (ops ++ [.merge m]) u v := .merged (by simp) first second
            have above := ((follows.root_eq_iff y u).mp same_u.symm).mono more
            have below := ((follows.root_eq_iff v z).mp same_v).mono more
            exact (above.trans here).trans below
        · intro joined
          refine joined.related
            (R := fun y z => (d.mergeBy pick m).root y = (d.mergeBy pick m).root z)
            ⟨fun _ => rfl, Eq.symm, Eq.trans⟩ fun m' listed u first v second => (root u v).mpr ?_
          rcases List.mem_append.mp listed with old | last
          · exact .inl ((follows.root_eq_iff u v).mpr (.merged old first second))
          · obtain rfl : m' = m := by simpa using last
            exact .inr ⟨List.mem_map_of_mem first, List.mem_map_of_mem second⟩

theorem follows_applyAllBy (chooses : Chooses pick) :
    Follows ((ofList l).applyAllBy pick ops) l ops := by
  induction ops using List.reverseRecOn with
  | nil => exact follows_ofList
  | append_singleton ops o ih =>
      rw [applyAllBy, List.foldl_append]
      exact ih.applyBy chooses

/-- Only known items are joined with a known item. -/
theorem Follows.known_of_joined (follows : Follows d l ops) (joined : Joined ops x y)
    (known : x ∈ d.items) : y ∈ d.items := by
  refine (joined.related (R := fun x y => x ∈ d.items ↔ y ∈ d.items)
    ⟨fun _ => .rfl, .symm, .trans⟩ fun m listed u first v second => ?_).mp known
  have mentioned (w : α) (member : w ∈ m) : w ∈ d.items :=
    (follows.mem_items w).mpr (.inr ⟨.merge m, listed, member⟩)
  exact ⟨fun _ => mentioned v second, fun _ => mentioned u first⟩

/-! ### Sets made by lookups -/

/-- The items of a list by their value under `f`, the values in the order in which they come. -/
def groupsBy (f : α → α) (l : List α) : List (α × List α) :=
  (l.map f).eraseDups.map fun r => (r, l.filter fun x => decide (f x = r))

theorem keys_groupsBy {f : α → α} : (groupsBy f l).map Prod.fst = (l.map f).eraseDups := by
  simp [groupsBy, Function.comp_def]

theorem lookIn_groupsBy {f : α → α} {r : α} :
    (Table.lookIn r (groupsBy f l)).getD [] = l.filter fun x => decide (f x = r) := by
  have nodup : ((groupsBy f l).map Prod.fst).Nodup := by
    rw [keys_groupsBy]
    exact nodup_eraseDups _
  by_cases present : r ∈ l.map f
  · have entry : (r, l.filter fun x => decide (f x = r)) ∈ groupsBy f l :=
      List.mem_map.mpr ⟨r, List.mem_eraseDups.mpr present, rfl⟩
    rw [Table.lookIn_eq_some_of_mem nodup entry, Option.getD_some]
  · have empty : (l.filter fun x => decide (f x = r)) = [] := by
      rw [List.filter_eq_nil_iff]
      intro x member same
      exact present (List.mem_map.mpr ⟨x, member, of_decide_eq_true same⟩)
    cases found : Table.lookIn r (groupsBy f l) with
    | none => rw [Option.getD_none, empty]
    | some v =>
        have key := List.mem_map_of_mem (f := Prod.fst) (Table.mem_of_lookIn_eq_some found)
        rw [keys_groupsBy, List.mem_eraseDups] at key
        exact absurd key present

/-- One more item goes to the end of its group, or founds a group at the end. -/
theorem putIn_groupsBy {f : α → α} :
    Table.putIn (f x) ((l.filter fun y => decide (f y = f x)) ++ [x]) (groupsBy f l) =
      groupsBy f (l ++ [x]) := by
  have filtered (r : α) : (l ++ [x]).filter (fun y => decide (f y = r)) =
      l.filter (fun y => decide (f y = r)) ++ if f x = r then [x] else [] := by
    by_cases same : f x = r <;> simp [same]
  by_cases present : f x ∈ l.map f
  · have keys : ((l ++ [x]).map f).eraseDups = (l.map f).eraseDups := by
      simp [List.eraseDups_append, List.removeAll, List.mem_map.mp present]
    rw [groupsBy, groupsBy, keys,
      Table.putIn_map (nodup_eraseDups _) (List.mem_eraseDups.mpr present)]
    refine List.map_congr_left fun r _ => ?_
    rw [filtered]
    by_cases same : r = f x
    · simp [same]
    · simp [same, Ne.symm same]
  · have new : f x ∉ (groupsBy f l).map Prod.fst := by
      rwa [keys_groupsBy, List.mem_eraseDups]
    have keys : ((l ++ [x]).map f).eraseDups = (l.map f).eraseDups ++ [f x] := by
      rw [List.mem_map] at present
      simp [List.eraseDups_append, List.eraseDups_cons, List.removeAll, present]
    rw [Table.putIn_of_not_mem new, groupsBy, groupsBy, keys, List.map_append, List.map_singleton]
    congr 1
    · refine List.map_congr_left fun r root => ?_
      have other : f x ≠ r := by
        rintro rfl
        exact present (List.mem_eraseDups.mp root)
      simp [filtered, other]
    · simp [filtered]

/-- The lookups by which the groups are made neither disturb the groups nor the roots. -/
theorem Grounded.gather {groups : Table α (List α)} (grounded : d.Grounded)
    (so_far : groups.entries = groupsBy d.root done) :
    (d.gather groups l).1.entries = groupsBy d.root (done ++ l) ∧
      Keeps d (d.gather groups l).2 l := by
  induction l generalizing d groups done with
  | nil => refine ⟨?_, grounded, fun _ => rfl, ?_⟩ <;> simp [DisjointSets.gather, so_far]
  | cons x l ih =>
      obtain ⟨root, found⟩ := grounded.find (x := x)
      have step : (groups.put (d.find x).1 ((groups.get? (d.find x).1).getD [] ++ [x])).entries =
          groupsBy (d.find x).2.root (done ++ [x]) := by
        rw [funext found.root_eq, ← putIn_groupsBy, ← lookIn_groupsBy, ← so_far, root]
        rfl
      obtain ⟨entries, kept⟩ := ih found.grounded step
      rw [funext found.root_eq, List.append_assoc] at entries
      exact ⟨entries, found.trans kept⟩

theorem Grounded.gather_items (grounded : d.Grounded) :
    (d.gather ∅ d.items).1.values = d.sets ∧ ∀ x, (d.gather ∅ d.items).2.root x = d.root x := by
  have start : (∅ : Table α (List α)).entries = groupsBy d.root [] := rfl
  obtain ⟨entries, kept⟩ := grounded.gather (l := d.items) start
  refine ⟨?_, kept.root_eq⟩
  rw [Table.values, entries, List.nil_append, groupsBy, List.map_map]
  rfl

/-- Every known item stands in one set and stands there once. -/
theorem perm_flatten_sets : d.sets.flatten.Perm d.items := by
  have items : d.items.Nodup := d.nodes.nodup
  refine (List.perm_ext_iff_of_nodup ?_ items).mpr fun x => ?_
  · refine List.nodup_flatten.mpr ⟨fun s member => ?_, ?_⟩
    · obtain ⟨_, _, rfl⟩ := mem_sets.mp member
      exact items.filter _
    · refine List.pairwise_map.mpr ((nodup_eraseDups _).imp fun different x first second => ?_)
      simp only [List.mem_filter, decide_eq_true_eq] at first second
      exact different (first.2.symm.trans second.2)
  · rw [List.mem_flatten]
    constructor
    · rintro ⟨s, member, inside⟩
      obtain ⟨_, _, rfl⟩ := mem_sets.mp member
      exact (List.mem_filter.mp inside).1
    · exact fun known => ⟨_, mem_sets.mpr ⟨x, known, rfl⟩, List.mem_filter.mpr ⟨known, by simp⟩⟩

/-- After any operations on a list of items, whichever roots the merges let stay, the partition
    consists of the classes of joined items: its items are those that were listed or mentioned,
    lookups arrive at a root and leave all roots as they are, and they arrive at one root exactly
    for joined items. The groups that further lookups make are the sets; together they hold each
    item once, and each is a class. To let the first of the heaviest roots stay is such a choice. -/
theorem applyAllBy_partitions :
    (∀ pick : DisjointSets α → α → List α → α, Chooses pick →
      ∀ (l : List α) (ops : List (Operation α)),
        let d := (ofList l).applyAllBy pick ops
        (∀ x, x ∈ d.items ↔ x ∈ l ∨ ∃ o ∈ ops, x ∈ o.items) ∧
          (∀ x, (∃ n, Climbs (d.add x).parent n x (d.find x).1) ∧
            (∀ y, y ∈ (d.find x).2.items ↔ y ∈ d.items ∨ y = x) ∧
            ∀ y, (d.find x).2.root y = d.root y) ∧
          (∀ x y, (d.find x).1 = ((d.find x).2.find y).1 ↔ Joined ops x y) ∧
          ((d.gather ∅ d.items).1.values = d.sets ∧
            ∀ x, (d.gather ∅ d.items).2.root x = d.root x) ∧
          (d.items.Nodup ∧ d.sets.flatten.Perm d.items) ∧
          ∀ s ∈ d.sets, s ≠ [] ∧ ∀ x ∈ s, ∀ y, y ∈ s ↔ Joined ops x y) ∧
    Chooses (heaviest : DisjointSets α → α → List α → α) := by
  refine ⟨fun pick chooses l ops => ?_, chooses_heaviest⟩
  intro d
  have follows : Follows d l ops := follows_applyAllBy chooses
  have grounded := follows.grounded
  refine ⟨follows.mem_items, fun x => ⟨?_, fun y => ?_, ?_⟩, fun x y => ?_, grounded.gather_items,
    ⟨d.nodes.nodup, perm_flatten_sets⟩, fun s member => ?_⟩
  · exact grounded.add.grounded.climbs_root x
  · rw [grounded.find.2.mem_items, List.mem_singleton]
  · exact grounded.find.2.root_eq
  · obtain ⟨root, found⟩ := grounded.find (x := x)
    rw [root, found.grounded.find.1, found.root_eq, follows.root_eq_iff]
  · obtain ⟨z, known, rfl⟩ := mem_sets.mp member
    refine ⟨List.ne_nil_of_mem (List.mem_filter.mpr ⟨known, by simp⟩), fun x inside y => ?_⟩
    simp only [setOf, List.mem_filter, decide_eq_true_eq] at inside ⊢
    rw [← inside.2, eq_comm, follows.root_eq_iff]
    exact ⟨And.right, fun joined => ⟨follows.known_of_joined joined inside.1, joined⟩⟩

/-- A merge through an item of an earlier one, in which an item is repeated that was not known. -/
theorem applyAllBy_partitions_chained :
    let ops : List (Operation Nat) := [.merge [0, 1], .merge [3, 1, 3], .find 4]
    let d := (ofList [0, 1, 2]).applyAllBy heaviest ops
    Chooses (heaviest : DisjointSets Nat → Nat → List Nat → Nat) ∧
      (d.find 0).1 = ((d.find 0).2.find 3).1 ∧ [2] ∈ d.sets ∧ ¬ Joined ops 2 0 := by
  intro ops d
  obtain ⟨all, chooses⟩ := applyAllBy_partitions (α := Nat)
  obtain ⟨_, _, roots, _, _, classes⟩ := all heaviest chooses [0, 1, 2] ops
  have joined : Joined ops 0 3 := .trans (y := 1)
    (.merged (l := [0, 1]) (by simp [ops]) (by simp) (by simp))
    (.merged (l := [3, 1, 3]) (by simp [ops]) (by simp) (by simp))
  have alone : [2] ∈ d.sets := by decide +kernel
  refine ⟨chooses, (roots 0 3).mpr joined, alone, fun together => ?_⟩
  have inside := ((classes [2] alone).2 2 List.mem_cons_self 0).mpr together
  simp at inside

end Automata.DisjointSets
