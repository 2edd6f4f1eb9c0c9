/-! # Finite sets as strictly sorted lists

A `SortedSet` has exactly one representation, so two sets with the same members are equal, and
`toList` is the listing in ascending order that every printed answer uses. Union and difference
walk along their two lists once.
-/

namespace Automata

universe u v

/-- A finite set of `α`, kept as its members in strictly ascending order. -/
structure SortedSet (α : Type u) [Ord α] where
  /-- The members, smallest first. -/
  toList : List α
  /-- Every member is below all later ones. -/
  sorted : toList.Pairwise fun a b => compare a b = .lt

namespace SortedSet

variable {α : Type u} {β : Type v} [Ord α] [Ord β]

instance [DecidableEq α] : DecidableEq (SortedSet α) := fun s t =>
  decidable_of_iff (s.toList = t.toList) (by cases s; cases t; simp)

def empty : SortedSet α := ⟨[], .nil⟩

instance : EmptyCollection (SortedSet α) := ⟨empty⟩

instance : Inhabited (SortedSet α) := ⟨empty⟩

instance : Membership α (SortedSet α) := ⟨fun s a => a ∈ s.toList⟩

@[simp] theorem mem_toList {a : α} {s : SortedSet α} : a ∈ s.toList ↔ a ∈ s := Iff.rfl

theorem not_mem_empty (a : α) : a ∉ (∅ : SortedSet α) := List.not_mem_nil

instance [DecidableEq α] (a : α) (s : SortedSet α) : Decidable (a ∈ s) :=
  inferInstanceAs (Decidable (a ∈ s.toList))

/-- Every member of the first set is a member of the second. -/
instance : HasSubset (SortedSet α) := ⟨fun s t => ∀ a ∈ s.toList, a ∈ t⟩

def size (s : SortedSet α) : Nat := s.toList.length

def isEmpty (s : SortedSet α) : Bool := s.toList.isEmpty

theorem isEmpty_iff {s : SortedSet α} : s.isEmpty = true ↔ ∀ a, a ∉ s := by
  rw [isEmpty, List.isEmpty_iff]
  exact List.eq_nil_iff_forall_not_mem

/-- The members that satisfy a test. -/
def filter (p : α → Bool) (s : SortedSet α) : SortedSet α :=
  ⟨s.toList.filter p, s.sorted.filter p⟩

@[simp] theorem mem_filter {p : α → Bool} {s : SortedSet α} {a : α} :
    a ∈ s.filter p ↔ a ∈ s ∧ p a = true :=
  List.mem_filter

def inter [DecidableEq α] (s t : SortedSet α) : SortedSet α := s.filter fun a => decide (a ∈ t)

@[simp] theorem mem_inter [DecidableEq α] {s t : SortedSet α} {a : α} :
    a ∈ s.inter t ↔ a ∈ s ∧ a ∈ t := by
  simp [inter]

/-- Whether the two sets have a member in common. -/
def meets [DecidableEq α] (s t : SortedSet α) : Bool := s.toList.any fun a => decide (a ∈ t)

theorem meets_iff [DecidableEq α] {s t : SortedSet α} :
    s.meets t = true ↔ ∃ a, a ∈ s ∧ a ∈ t := by
  simp [meets]

/-- The members other than the smallest. -/
def rest (s : SortedSet α) : SortedSet α :=
  ⟨s.toList.tail, s.sorted.sublist (List.tail_sublist _)⟩

/-! ### Operations on sorted lists -/

/-- Puts an element before the first larger one; an element already there is not repeated. -/
def insertInto (a : α) : List α → List α
  | [] => [a]
  | b :: l =>
    match compare a b with
    | .lt => a :: b :: l
    | .eq => b :: l
    | .gt => b :: insertInto a l

/-- The part of a sorted list below an element. -/
def below (a : α) (m : List α) : List α := m.takeWhile fun b => decide (compare b a = .lt)

/-- The part of a sorted list that is not below an element. -/
def notBelow (a : α) (m : List α) : List α := m.dropWhile fun b => decide (compare b a = .lt)

/-- A list without its first element if that one is equal to `a`. -/
def dropEqual (a : α) : List α → List α
  | [] => []
  | b :: m => if compare a b = .eq then m else b :: m

/-- Puts two sorted lists together; what both hold is not repeated. -/
def merge : List α → List α → List α
  | [], m => m
  | a :: l, m => below a m ++ a :: merge l (dropEqual a (notBelow a m))

/-- A sorted list without the elements of another one. -/
def minus : List α → List α → List α
  | [], _ => []
  | a :: l, m =>
    match notBelow a m with
    | [] => a :: l
    | b :: m => if compare a b = .eq then minus l m else a :: minus l (b :: m)

theorem mem_insertInto [Std.LawfulEqOrd α] {a x : α} {l : List α} :
    x ∈ insertInto a l ↔ x = a ∨ x ∈ l := by
  induction l with
  | nil => simp [insertInto]
  | cons b l ih =>
    unfold insertInto
    split
    · simp
    · rename_i h
      simp [Std.compare_eq_iff_eq.1 h]
    · simp only [List.mem_cons, ih]
      exact or_left_comm

theorem compare_of_mem_below {a x : α} {m : List α} (h : x ∈ below a m) : compare x a = .lt := by
  induction m with
  | nil => simp [below] at h
  | cons b m ih =>
    by_cases hb : compare b a = .lt
    · rcases List.mem_cons.1 (by simpa [below, hb] using h) with rfl | hx
      · exact hb
      · exact ih hx
    · simp [below, hb] at h

theorem below_append_notBelow (a : α) (m : List α) : below a m ++ notBelow a m = m :=
  List.takeWhile_append_dropWhile

theorem mem_merge [Std.LawfulEqOrd α] {x : α} {l m : List α} :
    x ∈ merge l m ↔ x ∈ l ∨ x ∈ m := by
  induction l generalizing m with
  | nil => simp [merge]
  | cons a l ih =>
    have h : x = a ∨ x ∈ dropEqual a (notBelow a m) ↔ x = a ∨ x ∈ notBelow a m := by
      cases notBelow a m with
      | nil => simp [dropEqual]
      | cons b m =>
        by_cases hb : compare a b = .eq
        · rw [dropEqual, if_pos hb, Std.compare_eq_iff_eq.1 hb]
          simp
        · simp [dropEqual, hb]
    have hm : x ∈ m ↔ x ∈ below a m ∨ x ∈ notBelow a m := by
      rw [← List.mem_append, below_append_notBelow]
    simp only [merge, List.mem_append, List.mem_cons, ih, hm]
    grind

section Lawful

variable [Std.TransOrd α] [Std.LawfulEqOrd α]

theorem pairwise_insertInto (a : α) {l : List α}
    (h : l.Pairwise fun x y => compare x y = .lt) :
    (insertInto a l).Pairwise fun x y => compare x y = .lt := by
  induction l with
  | nil => simp [insertInto]
  | cons b l ih =>
    obtain ⟨hb, hl⟩ := List.pairwise_cons.1 h
    unfold insertInto
    split
    · rename_i hab
      refine List.pairwise_cons.2 ⟨fun y hy => ?_, h⟩
      rcases List.mem_cons.1 hy with rfl | hy
      · exact hab
      · exact Std.TransCmp.lt_trans hab (hb y hy)
    · exact h
    · rename_i hab
      refine List.pairwise_cons.2 ⟨fun y hy => ?_, ih hl⟩
      rcases mem_insertInto.1 hy with rfl | hy
      · exact Std.OrientedCmp.gt_iff_lt.1 hab
      · exact hb y hy

omit [Std.LawfulEqOrd α] in
theorem compare_of_mem_notBelow {a x : α} {m : List α}
    (h : m.Pairwise fun y z => compare y z = .lt) (hx : x ∈ notBelow a m) :
    compare x a ≠ .lt := by
  induction m with
  | nil => simp [notBelow] at hx
  | cons b m ih =>
    obtain ⟨hb, hm⟩ := List.pairwise_cons.1 h
    by_cases hba : compare b a = .lt
    · exact ih hm (by simpa [notBelow, hba] using hx)
    · intro hxa
      rcases List.mem_cons.1 (by simpa [notBelow, hba] using hx) with rfl | hx
      · exact hba hxa
      · exact hba (Std.TransCmp.lt_trans (hb x hx) hxa)

theorem compare_of_mem_dropEqual {a x : α} {m : List α}
    (h : m.Pairwise fun y z => compare y z = .lt) (hx : x ∈ dropEqual a (notBelow a m)) :
    compare a x = .lt := by
  have hn : (notBelow a m).Pairwise fun y z => compare y z = .lt :=
    h.sublist (List.dropWhile_sublist _)
  have above : ∀ y ∈ notBelow a m, compare a y ≠ .eq → compare a y = .lt := fun y hy hne => by
    have hlt := compare_of_mem_notBelow h hy
    cases hc : compare a y with
    | lt => rfl
    | eq => exact absurd hc hne
    | gt => exact absurd (Std.OrientedCmp.gt_iff_lt.1 hc) hlt
  cases hd : notBelow a m with
  | nil => simp [hd, dropEqual] at hx
  | cons b r =>
    rw [hd] at hx hn above
    obtain ⟨hb, _⟩ := List.pairwise_cons.1 hn
    by_cases he : compare a b = .eq
    · rw [dropEqual, if_pos he] at hx
      rw [Std.compare_eq_iff_eq.1 he]
      exact hb x hx
    · have hab := above b (by simp) he
      rw [dropEqual, if_neg he] at hx
      rcases List.mem_cons.1 hx with rfl | hx
      · exact hab
      · exact Std.TransCmp.lt_trans hab (hb x hx)

omit [Std.TransOrd α] [Std.LawfulEqOrd α] in
theorem dropEqual_sublist (a : α) (m : List α) : (dropEqual a m).Sublist m := by
  cases m with
  | nil => exact .slnil
  | cons b m =>
    rw [dropEqual]
    split
    · exact List.sublist_cons_self b m
    · exact List.Sublist.refl _

theorem pairwise_merge {l m : List α} (hl : l.Pairwise fun x y => compare x y = .lt)
    (hm : m.Pairwise fun x y => compare x y = .lt) :
    (merge l m).Pairwise fun x y => compare x y = .lt := by
  induction l generalizing m with
  | nil => exact hm
  | cons a l ih =>
    obtain ⟨ha, hl⟩ := List.pairwise_cons.1 hl
    have hd : (dropEqual a (notBelow a m)).Pairwise fun x y => compare x y = .lt :=
      hm.sublist ((dropEqual_sublist a _).trans (List.dropWhile_sublist _))
    have hr : ∀ x ∈ merge l (dropEqual a (notBelow a m)), compare a x = .lt := fun x hx =>
      (mem_merge.1 hx).elim (ha x) (compare_of_mem_dropEqual hm)
    refine List.pairwise_append.2 ⟨hm.sublist (List.takeWhile_sublist _),
      List.pairwise_cons.2 ⟨hr, ih hl hd⟩, fun x hx y hy => ?_⟩
    have hxa := compare_of_mem_below hx
    rcases List.mem_cons.1 hy with rfl | hy
    · exact hxa
    · exact Std.TransCmp.lt_trans hxa (hr y hy)

omit [Std.TransOrd α] [Std.LawfulEqOrd α] in
theorem minus_sublist (l m : List α) : (minus l m).Sublist l := by
  induction l generalizing m with
  | nil => exact .slnil
  | cons a l ih =>
    unfold minus
    split
    · exact List.Sublist.refl _
    · split
      · exact (ih _).cons a
      · exact (ih _).cons_cons a

theorem mem_minus {x : α} {l m : List α} (hl : l.Pairwise fun x y => compare x y = .lt)
    (hm : m.Pairwise fun x y => compare x y = .lt) : x ∈ minus l m ↔ x ∈ l ∧ x ∉ m := by
  induction l generalizing m with
  | nil => simp [minus]
  | cons a l ih =>
    obtain ⟨ha, hl⟩ := List.pairwise_cons.1 hl
    have hn : (notBelow a m).Pairwise fun x y => compare x y = .lt :=
      hm.sublist (List.dropWhile_sublist _)
    have irrefl : ∀ y : α, compare y y ≠ .lt := fun y hy => by simp at hy
    have hx : x ∈ a :: l → (x ∈ m ↔ x ∈ notBelow a m) := fun hx => by
      have hb : x ∉ below a m := fun hb => by
        have hxa := compare_of_mem_below hb
        rcases List.mem_cons.1 hx with rfl | hx
        · exact irrefl x hxa
        · exact irrefl x (Std.TransCmp.lt_trans hxa (ha x hx))
      have : x ∈ m ↔ x ∈ below a m ∨ x ∈ notBelow a m := by
        rw [← List.mem_append, below_append_notBelow]
      simp [this, hb]
    have key : x ∈ minus (a :: l) m ↔ x ∈ a :: l ∧ x ∉ notBelow a m := by
      unfold minus
      cases hd : notBelow a m with
      | nil => simp
      | cons b r =>
        rw [hd] at hn
        obtain ⟨hb, hr⟩ := List.pairwise_cons.1 hn
        by_cases he : compare a b = .eq
        · have hab : a = b := Std.compare_eq_iff_eq.1 he
          subst hab
          simp only [he, if_true, ih hl hr, List.mem_cons, not_or]
          refine ⟨fun ⟨h₁, h₂⟩ => ⟨.inr h₁, fun e => ?_, h₂⟩, fun ⟨h₁, h₂, h₃⟩ =>
            ⟨h₁.resolve_left h₂, h₃⟩⟩
          exact irrefl a (e ▸ ha x h₁)
        · have hab : compare a b = .lt := by
            have hba := compare_of_mem_notBelow hm (a := a) (x := b) (by simp [hd])
            cases hc : compare a b with
            | lt => rfl
            | eq => exact absurd hc he
            | gt => exact absurd (Std.OrientedCmp.gt_iff_lt.1 hc) hba
          have hnot : a ∉ b :: r := fun h => by
            rcases List.mem_cons.1 h with rfl | h
            · exact irrefl _ hab
            · exact irrefl a (Std.TransCmp.lt_trans hab (hb a h))
          simp only [he, if_false, List.mem_cons (a := x) (b := a), ih hl hn]
          refine ⟨fun h => ?_, fun ⟨h₁, h₂⟩ => h₁.imp_right fun h => ⟨h, h₂⟩⟩
          rcases h with rfl | ⟨h₁, h₂⟩
          · exact ⟨.inl rfl, hnot⟩
          · exact ⟨.inr h₁, h₂⟩
    rw [key]
    exact and_congr_right fun h => not_congr (hx h).symm

/-! ### Operations on sets -/

def insert (s : SortedSet α) (a : α) : SortedSet α :=
  ⟨insertInto a s.toList, pairwise_insertInto a s.sorted⟩

@[simp] theorem mem_insert {s : SortedSet α} {a x : α} : x ∈ s.insert a ↔ x = a ∨ x ∈ s :=
  mem_insertInto

def singleton (a : α) : SortedSet α := ⟨[a], List.pairwise_singleton _ a⟩

omit [Std.TransOrd α] [Std.LawfulEqOrd α] in
@[simp] theorem mem_singleton {a x : α} : x ∈ singleton a ↔ x = a := List.mem_singleton

/-- The members of either set. -/
def union (s t : SortedSet α) : SortedSet α :=
  ⟨merge s.toList t.toList, pairwise_merge s.sorted t.sorted⟩

@[simp] theorem mem_union {s t : SortedSet α} {x : α} : x ∈ s.union t ↔ x ∈ s ∨ x ∈ t :=
  mem_merge

/-- The members of the first set that are not in the second. -/
def diff (s t : SortedSet α) : SortedSet α :=
  ⟨minus s.toList t.toList, s.sorted.sublist (minus_sublist _ _)⟩

@[simp] theorem mem_diff {s t : SortedSet α} {x : α} : x ∈ s.diff t ↔ x ∈ s ∧ x ∉ t :=
  mem_minus s.sorted t.sorted

instance (s t : SortedSet α) : Decidable (s ⊆ t) :=
  decidable_of_iff ((s.diff t).isEmpty = true) <| by
    rw [isEmpty, List.isEmpty_iff, List.eq_nil_iff_forall_not_mem]
    refine forall_congr' fun a => ?_
    rw [mem_toList, mem_diff, mem_toList, not_and, Classical.not_not]

/-- The unions of neighbours in a list of sets. -/
def uniteNeighbours : List (SortedSet α) → List (SortedSet α)
  | s :: t :: l => s.union t :: uniteNeighbours l
  | l => l

/-- Unites neighbours for a number of rounds, and what is left then one by one. -/
def unionsWithin : Nat → List (SortedSet α) → SortedSet α
  | rounds + 1, s :: t :: l => unionsWithin rounds (uniteNeighbours (s :: t :: l))
  | _, l => l.foldr union ∅

def unions (l : List (SortedSet α)) : SortedSet α := unionsWithin l.length l

theorem mem_uniteNeighbours {l : List (SortedSet α)} {x : α} :
    (∃ s ∈ uniteNeighbours l, x ∈ s) ↔ ∃ s ∈ l, x ∈ s := by
  induction l using uniteNeighbours.induct with
  | case1 s t l ih => simp [uniteNeighbours, ih, or_assoc]
  | case2 l h => rw [uniteNeighbours.eq_2 l h]

theorem mem_unionsWithin {rounds : Nat} {l : List (SortedSet α)} {x : α} :
    x ∈ unionsWithin rounds l ↔ ∃ s ∈ l, x ∈ s := by
  have fold : ∀ l : List (SortedSet α), x ∈ l.foldr union ∅ ↔ ∃ s ∈ l, x ∈ s := fun l => by
    induction l with
    | nil => simp [not_mem_empty]
    | cons s l ih => simp [ih]
  induction rounds generalizing l with
  | zero => exact fold l
  | succ rounds ih =>
    match l with
    | s :: t :: l => exact ih.trans mem_uniteNeighbours
    | [s] => exact fold [s]
    | [] => exact fold []

@[simp] theorem mem_unions {l : List (SortedSet α)} {x : α} :
    x ∈ unions l ↔ ∃ s ∈ l, x ∈ s :=
  mem_unionsWithin

def ofList (l : List α) : SortedSet α := unions (l.map singleton)

@[simp] theorem mem_ofList {l : List α} {x : α} : x ∈ ofList l ↔ x ∈ l := by
  rw [ofList, mem_unions]
  refine ⟨fun ⟨s, hs, hx⟩ => ?_, fun hx => ⟨singleton x, List.mem_map_of_mem hx, by simp⟩⟩
  obtain ⟨a, ha, rfl⟩ := List.mem_map.1 hs
  exact mem_singleton.1 hx ▸ ha

end Lawful

/-- The images of the members under a function. -/
def map [Std.TransOrd β] [Std.LawfulEqOrd β] (f : α → β) (s : SortedSet α) : SortedSet β :=
  ofList (s.toList.map f)

@[simp] theorem mem_map [Std.TransOrd β] [Std.LawfulEqOrd β] {f : α → β} {s : SortedSet α}
    {y : β} : y ∈ s.map f ↔ ∃ a ∈ s, f a = y := by
  simp [map]

theorem forall_of_map_subset [Std.TransOrd β] [Std.LawfulEqOrd β] {f : α → β} {s : SortedSet α}
    {t : SortedSet β} (h : s.map f ⊆ t) : ∀ a ∈ s.toList, f a ∈ t :=
  fun a ha => h (f a) (mem_map.2 ⟨a, ha, rfl⟩)

section Ext

variable [Std.TransOrd α]

/-- A strictly sorted list is determined by its elements. -/
theorem eq_of_pairwise_of_mem_iff {l m : List α}
    (hl : l.Pairwise fun a b => compare a b = .lt) (hm : m.Pairwise fun a b => compare a b = .lt)
    (h : ∀ a, a ∈ l ↔ a ∈ m) : l = m := by
  have irrefl : ∀ a : α, compare a a ≠ .lt := fun a ha => by simp at ha
  have asymm : ∀ a b : α, compare a b = .lt → compare b a ≠ .lt := fun a b hab hba =>
    irrefl a (Std.TransCmp.lt_trans hab hba)
  induction l generalizing m with
  | nil =>
    cases m with
    | nil => rfl
    | cons b m => exact absurd ((h b).2 (by simp)) (by simp)
  | cons a l ih =>
    cases m with
    | nil => exact absurd ((h a).1 (by simp)) (by simp)
    | cons b m =>
      obtain ⟨ha, hl'⟩ := List.pairwise_cons.1 hl
      obtain ⟨hb, hm'⟩ := List.pairwise_cons.1 hm
      have hab : a = b := by
        rcases List.mem_cons.1 ((h a).1 (by simp)) with e | ham
        · exact e
        rcases List.mem_cons.1 ((h b).2 (by simp)) with e | hbl
        · exact e.symm
        exact absurd (hb a ham) (asymm a b (ha b hbl))
      subst hab
      have tails : ∀ x, x ∈ l ↔ x ∈ m := fun x => by
        refine ⟨fun hx => ?_, fun hx => ?_⟩
        · rcases List.mem_cons.1 ((h x).1 (List.mem_cons_of_mem _ hx)) with rfl | hx'
          · exact absurd (ha x hx) (irrefl x)
          · exact hx'
        · rcases List.mem_cons.1 ((h x).2 (List.mem_cons_of_mem _ hx)) with rfl | hx'
          · exact absurd (hb x hx) (irrefl x)
          · exact hx'
      rw [ih hl' hm' tails]

/-- Sets with the same members are equal. -/
@[ext] theorem ext {s t : SortedSet α} (h : ∀ a, a ∈ s ↔ a ∈ t) : s = t := by
  cases s
  cases t
  congr
  exact eq_of_pairwise_of_mem_iff (by assumption) (by assumption) h

theorem nodup_toList (s : SortedSet α) : s.toList.Nodup :=
  s.sorted.imp fun h e => by simp [e] at h

/-- A set has as many members as a list of them without repetitions. -/
theorem size_eq_length {s : SortedSet α} {l : List α} (nodup : l.Nodup)
    (same : ∀ a, a ∈ s ↔ a ∈ l) : s.size = l.length :=
  ((List.perm_ext_iff_of_nodup s.nodup_toList nodup).mpr same).length_eq

section Least

variable {s : SortedSet α} {a x : α} {l : List α}

omit [Std.TransOrd α] in
theorem compare_of_least (h : s.toList = a :: l) (hx : x ∈ s) (hne : x ≠ a) :
    compare a x = .lt := by
  have hs := s.sorted
  rw [h, List.pairwise_cons] at hs
  rw [← mem_toList, h] at hx
  exact hs.1 x ((List.mem_cons.1 hx).resolve_left hne)

theorem mem_rest (h : s.toList = a :: l) : x ∈ s.rest ↔ x ∈ s ∧ x ≠ a := by
  have hs := s.nodup_toList
  rw [h, List.nodup_cons] at hs
  have hr : x ∈ s.rest ↔ x ∈ l := show x ∈ s.toList.tail ↔ x ∈ l by rw [h, List.tail_cons]
  rw [hr, ← mem_toList (s := s), h, List.mem_cons]
  refine ⟨fun hx => ⟨.inr hx, fun e => hs.1 (e ▸ hx)⟩, fun ⟨hx, hne⟩ => hx.resolve_left hne⟩

end Least

end Ext

end SortedSet

end Automata
