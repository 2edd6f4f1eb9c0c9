import Automata.Worklist
import Mathlib.Data.List.Nodup
import Mathlib.Data.List.Perm.Subperm
import Mathlib.Logic.Relation

/-! # What a breadth-first search finds

A search with a large enough bound finds exactly what can be reached from its roots. Its known
elements are always those it has taken from the queue, followed by the queue itself; the former
lead to known elements only, and when the queue is empty nothing is left to find.
-/

namespace Automata.Worklist

variable {α : Type*} {next : α → List α}

/-- One element leads to another in some steps. -/
abbrev Reaches (next : α → List α) : α → α → Prop :=
  Relation.ReflTransGen fun a b => b ∈ next a

private theorem mem_of_reaches {known : List α}
    (closed : ∀ a ∈ known, ∀ b ∈ next a, b ∈ known) {a b : α} (member : a ∈ known)
    (reaches : Reaches next a b) : b ∈ known := by
  induction reaches with
  | refl => exact member
  | tail _ step ih => exact closed _ ih _ step

theorem nodup_unknown [DecidableEq α] {known l : List α} : (unknown known l).Nodup := by
  induction l generalizing known with
  | nil => exact .nil
  | cons a l ih =>
      unfold unknown
      split
      · exact ih
      · exact List.nodup_cons.mpr ⟨fun member => (mem_unknown.mp member).2 (by simp), ih⟩

/-- What a search keeps: the elements that are done lead to known ones, and the bound suffices for
    all that can be reached. -/
structure Searching (next : α → List α) (all done queue : List α) (bound : Nat) : Prop where
  nodup : (done ++ queue).Nodup
  closed : ∀ a ∈ done, ∀ b ∈ next a, b ∈ done ++ queue
  inside : ∀ a ∈ done ++ queue, ∀ b, Reaches next a b → b ∈ all
  enough : all.length ≤ done.length + bound

namespace Searching

variable {all done queue : List α} {bound : Nat} {a b : α}

theorem mem_done (search : Searching next all done [] bound) :
    b ∈ done ↔ ∃ a ∈ done, Reaches next a b := by
  have closed := search.closed
  rw [List.append_nil] at closed
  constructor
  · intro member
    exact ⟨b, member, .refl⟩
  · intro ⟨a, member, reaches⟩
    exact mem_of_reaches closed member reaches

/-- As many elements are done as there are at all. -/
theorem queue_eq_nil (search : Searching next all done queue 0) : queue = [] := by
  have subset : done ++ queue ⊆ all := fun a member => search.inside a member a .refl
  have fits := (List.subperm_of_subset search.nodup subset).length_le
  have enough := search.enough
  apply List.eq_nil_of_length_eq_zero
  simp only [List.length_append] at fits
  omega

variable [DecidableEq α]

/-- What the next element leads to is reached from the known elements. -/
theorem reaches_of_mem (member : b ∈ done ++ a :: queue ++ unknown (done ++ a :: queue) (next a)) :
    ∃ c ∈ done ++ a :: queue, Reaches next c b := by
  rcases List.mem_append.mp member with known | found
  · exact ⟨b, known, .refl⟩
  · exact ⟨a, by simp, .single (mem_unknown.mp found).1⟩

theorem step (search : Searching next all done (a :: queue) (bound + 1)) :
    Searching next all (done ++ [a]) (queue ++ unknown (done ++ a :: queue) (next a)) bound := by
  have same : (done ++ [a]) ++ (queue ++ unknown (done ++ a :: queue) (next a)) =
      done ++ a :: queue ++ unknown (done ++ a :: queue) (next a) := by simp
  constructor
  · rw [same]
    refine List.nodup_append.mpr ⟨search.nodup, nodup_unknown, fun x known y found => ?_⟩
    rintro rfl
    exact (mem_unknown.mp found).2 known
  · rw [same]
    intro x member y step
    rcases List.mem_append.mp member with old | new
    · exact List.mem_append_left _ (search.closed x old y step)
    · rw [List.mem_singleton.mp new] at step
      by_cases known : y ∈ done ++ a :: queue
      · exact List.mem_append_left _ known
      · exact List.mem_append_right _ (mem_unknown.mpr ⟨step, known⟩)
  · rw [same]
    intro x member y reaches
    obtain ⟨z, known, first⟩ := reaches_of_mem member
    exact search.inside z known y (first.trans reaches)
  · have enough := search.enough
    simp only [List.length_append, List.length_singleton]
    omega

theorem mem_expand (search : Searching next all done queue bound) :
    b ∈ expand next bound queue (done ++ queue) ↔ ∃ a ∈ done ++ queue, Reaches next a b := by
  induction bound generalizing done queue with
  | zero =>
      obtain rfl := search.queue_eq_nil
      rw [List.append_nil]
      exact search.mem_done
  | succ bound ih =>
      cases queue with
      | nil =>
          rw [List.append_nil]
          exact search.mem_done
      | cons a queue =>
          have same : done ++ a :: queue ++ unknown (done ++ a :: queue) (next a) =
              (done ++ [a]) ++ (queue ++ unknown (done ++ a :: queue) (next a)) := by simp
          rw [expand, same, ih search.step, ← same]
          constructor
          · intro ⟨x, member, reaches⟩
            obtain ⟨y, known, first⟩ := reaches_of_mem member
            exact ⟨y, known, first.trans reaches⟩
          · intro ⟨x, known, reaches⟩
            exact ⟨x, List.mem_append_left _ known, reaches⟩

end Searching

/-- A search whose bound is at least the number of elements that can be reached finds them all. -/
theorem mem_discover [DecidableEq α] {all roots : List α} {bound : Nat}
    (inside : ∀ a ∈ roots, ∀ b, Reaches next a b → b ∈ all) (enough : all.length ≤ bound)
    {b : α} : b ∈ discover next bound roots ↔ ∃ a ∈ roots, Reaches next a b := by
  have start : ∀ a, a ∈ unknown [] roots ↔ a ∈ roots := fun a => by simp [mem_unknown]
  have search : Searching next all [] (unknown [] roots) bound :=
    ⟨nodup_unknown, by simp, fun a member => inside a ((start a).mp member), by simpa using enough⟩
  have found := search.mem_expand (b := b)
  simpa [discover, start] using found

end Automata.Worklist
