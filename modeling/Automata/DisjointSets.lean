import Automata.Table

/-! # Disjoint sets

A partition kept as a forest: every item points to its parent, a root to itself, and a root knows
how many items its set has. Looking an item up shortens its way to the root, and merging hangs the
lighter roots below the heaviest one.
-/

namespace Automata

universe u

/-- What a partition stores for an item. -/
structure DisjointSets.Node (α : Type u) where
  /-- The next item on the way to the root; a root is its own parent. -/
  parent : α
  /-- For a root, the size of its set; for other items, an older size. -/
  weight : Nat

/-- A partition of the items that have been mentioned. -/
structure DisjointSets (α : Type u) where
  /-- The nodes, in the order in which their items were first mentioned. -/
  nodes : Table α (DisjointSets.Node α)

namespace DisjointSets

variable {α : Type u}

def empty : DisjointSets α := ⟨∅⟩

def items (d : DisjointSets α) : List α := d.nodes.keys

variable [DecidableEq α]

/-- Makes an item a set of its own unless it is known. -/
def add (d : DisjointSets α) (x : α) : DisjointSets α :=
  match d.nodes.get? x with
  | some _ => d
  | none => ⟨d.nodes.put x ⟨x, 1⟩⟩

def ofList (l : List α) : DisjointSets α := l.foldl add empty

/-- The parent of an item; an unknown item counts as a root. -/
def parent (d : DisjointSets α) (x : α) : α :=
  match d.nodes.get? x with
  | some node => node.parent
  | none => x

def weight (d : DisjointSets α) (x : α) : Nat :=
  match d.nodes.get? x with
  | some node => node.weight
  | none => 1

/-- The items from `x` up to its root, both included, over at most `bound` steps. -/
def trail (d : DisjointSets α) : Nat → α → List α
  | 0, x => [x]
  | bound + 1, x => if d.parent x = x then [x] else x :: d.trail bound (d.parent x)

/-- The item that is reached from `x` by at most `bound` steps to a parent. -/
def climb (d : DisjointSets α) : Nat → α → α
  | 0, x => x
  | bound + 1, x => if d.parent x = x then x else d.climb bound (d.parent x)

/-- The root of the set that holds an item. No way to a root has more steps than there are items. -/
def root (d : DisjointSets α) (x : α) : α := d.climb d.nodes.size x

def setParent (d : DisjointSets α) (x p : α) : DisjointSets α :=
  ⟨d.nodes.put x ⟨p, d.weight x⟩⟩

/-- Looks an item up, after adding it if it is unknown, and lets every item on the way point to
    the root. -/
def find (d : DisjointSets α) (x : α) : α × DisjointSets α :=
  let d := d.add x
  let r := d.root x
  (r, (d.trail d.nodes.size x).foldl (fun d y => d.setParent y r) d)

def findAll (d : DisjointSets α) : List α → List α × DisjointSets α
  | [] => ([], d)
  | x :: l =>
    let (r, d) := d.find x
    let (rs, d) := d.findAll l
    (r :: rs, d)

/-- The first of the heaviest items in a list, given one to start with. -/
def heaviest (d : DisjointSets α) (r : α) (l : List α) : α :=
  l.foldl (fun best x => if d.weight best < d.weight x then x else best) r

/-- Hangs a root below another one, which takes over its weight. -/
def hang (d : DisjointSets α) (top r : α) : DisjointSets α :=
  let d : DisjointSets α := ⟨d.nodes.put top ⟨d.parent top, d.weight top + d.weight r⟩⟩
  d.setParent r top

/-- Merges the sets of all the items of a list below the one of their roots that is picked. -/
def mergeBy (pick : DisjointSets α → α → List α → α) (d : DisjointSets α) (l : List α) :
    DisjointSets α :=
  let (rs, d) := d.findAll l
  match rs.eraseDups with
  | [] => d
  | r :: rs =>
    let top := pick d r rs
    ((r :: rs).filter fun x => decide (x ≠ top)).foldl (fun d x => d.hang top x) d

/-- Merges the sets of all the items of a list below the first of their heaviest roots. -/
def merge (d : DisjointSets α) (l : List α) : DisjointSets α := d.mergeBy heaviest l

/-- The sets, in the order of their first members. -/
def sets (d : DisjointSets α) : List (List α) :=
  (d.items.map d.root).eraseDups.map fun r => d.items.filter fun x => decide (d.root x = r)

/-- Looks up the items of a list one after the other and adds each to the group of its root. -/
def gather (d : DisjointSets α) (groups : Table α (List α)) :
    List α → Table α (List α) × DisjointSets α
  | [] => (groups, d)
  | x :: l =>
    let (r, d) := d.find x
    d.gather (groups.put r ((groups.get? r).getD [] ++ [x])) l

end DisjointSets

end Automata
