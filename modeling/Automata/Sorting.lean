/-! # Sorting

A list is sorted by putting its elements, last to first, into a list that is already sorted.
Elements that the order does not tell apart keep their places among each other.
-/

namespace Automata.Sorting

universe u

variable {α : Type u} {cmp : α → α → Ordering}

/-- Puts an element before the first one of a list that it does not come after. -/
def place (cmp : α → α → Ordering) (a : α) : List α → List α
  | [] => [a]
  | b :: l => if cmp a b = .gt then b :: place cmp a l else a :: b :: l

/-- The elements of a list in the order of a comparison. -/
def sortBy (cmp : α → α → Ordering) (l : List α) : List α := l.foldr (place cmp) []

/-- The elements of a list in ascending order. -/
def sort [Ord α] (l : List α) : List α := sortBy compare l

theorem perm_place (a : α) (l : List α) : (place cmp a l).Perm (a :: l) := by
  induction l with
  | nil => exact .refl _
  | cons b l ih =>
    rw [place]
    split
    · exact (ih.cons b).trans (.swap a b l)
    · exact .refl _

/-- Sorting neither adds nor drops anything. -/
theorem perm_sortBy (l : List α) : (sortBy cmp l).Perm l := by
  induction l with
  | nil => exact .refl _
  | cons a l ih => exact (perm_place a _).trans (ih.cons a)

@[simp] theorem mem_sortBy {a : α} {l : List α} : a ∈ sortBy cmp l ↔ a ∈ l :=
  (perm_sortBy l).mem_iff

@[simp] theorem mem_sort [Ord α] {a : α} {l : List α} : a ∈ sort l ↔ a ∈ l := mem_sortBy

theorem pairwise_place [Std.TransCmp cmp] (a : α) {l : List α}
    (h : l.Pairwise fun x y => (cmp x y).isLE = true) :
    (place cmp a l).Pairwise fun x y => (cmp x y).isLE = true := by
  induction l with
  | nil => exact List.pairwise_singleton _ a
  | cons b l ih =>
    obtain ⟨hb, hl⟩ := List.pairwise_cons.1 h
    rw [place]
    split
    · rename_i hab
      refine List.pairwise_cons.2 ⟨fun x hx => ?_, ih hl⟩
      rcases List.mem_cons.1 ((perm_place a l).mem_iff.1 hx) with rfl | hx
      · rw [Std.OrientedCmp.gt_iff_lt.1 hab]
        rfl
      · exact hb x hx
    · rename_i hab
      have hab : (cmp a b).isLE = true := by
        cases hc : cmp a b with
        | lt | eq => rfl
        | gt => exact absurd hc hab
      refine List.pairwise_cons.2 ⟨fun x hx => ?_, h⟩
      rcases List.mem_cons.1 hx with rfl | hx
      · exact hab
      · exact Std.TransCmp.isLE_trans hab (hb x hx)

theorem pairwise_sortBy [Std.TransCmp cmp] (l : List α) :
    (sortBy cmp l).Pairwise fun x y => (cmp x y).isLE = true := by
  induction l with
  | nil => exact .nil
  | cons a l ih => exact pairwise_place a ih

end Automata.Sorting
