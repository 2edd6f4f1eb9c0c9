import Automata.DisjointSets

/-! # Histories of disjoint sets

What has been done to a partition, as a list of operations, and what it should amount to: two
items are joined when the merges of the list, taken together, put them into one set.
-/

namespace Automata.DisjointSets

universe u

/-- What can be done to a partition. -/
inductive Operation (α : Type u) where
  | find (x : α)
  | merge (l : List α)

variable {α : Type u}

/-- The items that an operation mentions. -/
def Operation.items : Operation α → List α
  | .find x => [x]
  | .merge l => l

/-- Carries out an operation, where `pick` chooses the root that stays. -/
def applyBy [DecidableEq α] (pick : DisjointSets α → α → List α → α) (d : DisjointSets α) :
    Operation α → DisjointSets α
  | .find x => (d.find x).2
  | .merge l => d.mergeBy pick l

def applyAllBy [DecidableEq α] (pick : DisjointSets α → α → List α → α) (d : DisjointSets α)
    (ops : List (Operation α)) : DisjointSets α :=
  ops.foldl (applyBy pick) d

/-- Carries out the operations of a list with the first of the heaviest roots. -/
def applyAll [DecidableEq α] (d : DisjointSets α) (ops : List (Operation α)) : DisjointSets α :=
  d.applyAllBy heaviest ops

/-- The least equivalence under which all the items of every merge of a list are alike. -/
inductive Joined (ops : List (Operation α)) : α → α → Prop where
  /-- Items of one merge are joined. -/
  | merged {l : List α} {x y : α} : .merge l ∈ ops → x ∈ l → y ∈ l → Joined ops x y
  | refl {x : α} : Joined ops x x
  | symm {x y : α} : Joined ops x y → Joined ops y x
  | trans {x y z : α} : Joined ops x y → Joined ops y z → Joined ops x z

theorem Joined.mono {ops more : List (Operation α)} {x y : α} (h : Joined ops x y)
    (hs : ∀ o ∈ ops, o ∈ more) : Joined more x y := by
  induction h with
  | merged hm hx hy => exact .merged (hs _ hm) hx hy
  | refl => exact .refl
  | symm _ ih => exact .symm ih
  | trans _ _ ih₁ ih₂ => exact .trans ih₁ ih₂

end Automata.DisjointSets
