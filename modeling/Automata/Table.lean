/-! # Tables in insertion order

A `Table` maps keys to values. Writing to a key that is present replaces its value where it
stands; a new key goes to the end. So the last write to a key wins, and the keys are listed in
the order in which they first came.
-/

namespace Automata

universe u v w

/-- A finite map whose entries are listed in the order in which their keys first came. -/
structure Table (κ : Type u) (β : Type v) where
  /-- The entries, oldest key first. -/
  entries : List (κ × β)
  /-- No key has two entries. -/
  nodup : (entries.map Prod.fst).Nodup

namespace Table

variable {κ : Type u} {β : Type v} {γ : Type w}

def empty : Table κ β := ⟨[], by simp⟩

instance : EmptyCollection (Table κ β) := ⟨empty⟩

instance : Inhabited (Table κ β) := ⟨empty⟩

/-- The keys, oldest first. -/
def keys (t : Table κ β) : List κ := t.entries.map Prod.fst

def values (t : Table κ β) : List β := t.entries.map Prod.snd

def size (t : Table κ β) : Nat := t.entries.length

/-- The entries whose key satisfies a test. -/
def filterKeys (p : κ → Bool) (t : Table κ β) : Table κ β :=
  ⟨t.entries.filter fun e => p e.1, by
    have h : t.entries.filter (fun e => p e.1) |>.Sublist t.entries := List.filter_sublist
    exact t.nodup.sublist (h.map Prod.fst)⟩

/-- The entries that satisfy a test. -/
def filter (p : κ → β → Bool) (t : Table κ β) : Table κ β :=
  ⟨t.entries.filter fun e => p e.1 e.2, by
    have h : t.entries.filter (fun e => p e.1 e.2) |>.Sublist t.entries := List.filter_sublist
    exact t.nodup.sublist (h.map Prod.fst)⟩

variable [DecidableEq κ]

/-- The value that a list of entries holds for a key. -/
def lookIn (k : κ) : List (κ × β) → Option β
  | [] => none
  | e :: l => if e.1 = k then some e.2 else lookIn k l

def get? (t : Table κ β) (k : κ) : Option β := lookIn k t.entries

/-- Replaces the entry of a key where it stands, or adds one at the end. -/
def putIn (k : κ) (v : β) : List (κ × β) → List (κ × β)
  | [] => [(k, v)]
  | e :: l => if e.1 = k then (k, v) :: l else e :: putIn k v l

theorem mem_keys_putIn {k x : κ} {v : β} {l : List (κ × β)} :
    x ∈ (putIn k v l).map Prod.fst ↔ x = k ∨ x ∈ l.map Prod.fst := by
  induction l with
  | nil => simp [putIn]
  | cons e l ih =>
    unfold putIn
    split
    · rename_i h
      simp [h]
    · simp only [List.map_cons, List.mem_cons, ih]
      exact or_left_comm

theorem nodup_putIn (k : κ) (v : β) {l : List (κ × β)} (h : (l.map Prod.fst).Nodup) :
    ((putIn k v l).map Prod.fst).Nodup := by
  induction l with
  | nil => simp [putIn]
  | cons e l ih =>
    obtain ⟨he, hl⟩ := List.nodup_cons.1 h
    unfold putIn
    split
    · rename_i hk
      exact List.nodup_cons.2 ⟨hk ▸ he, hl⟩
    · rename_i hk
      refine List.nodup_cons.2 ⟨fun hm => ?_, ih hl⟩
      exact (mem_keys_putIn.1 hm).elim hk he

def put (t : Table κ β) (k : κ) (v : β) : Table κ β :=
  ⟨putIn k v t.entries, nodup_putIn k v t.nodup⟩

theorem lookIn_putIn {k x : κ} {v : β} {l : List (κ × β)} :
    lookIn x (putIn k v l) = if k = x then some v else lookIn x l := by
  induction l with
  | nil => simp [putIn, lookIn]
  | cons e l ih =>
    unfold putIn
    split
    · rename_i h
      subst h
      by_cases hx : e.1 = x <;> simp [lookIn, hx]
    · rename_i h
      by_cases hx : e.1 = x
      · have hk : k ≠ x := fun hk => h (hx.trans hk.symm)
        simp [lookIn, hx, hk]
      · simp [lookIn, hx, ih]

/-- A write is read back at its key and leaves all other keys alone. -/
@[simp] theorem get?_put {t : Table κ β} {k x : κ} {v : β} :
    (t.put k v).get? x = if k = x then some v else t.get? x :=
  lookIn_putIn

/-- Writes a list of entries, first to last. -/
def putAll (t : Table κ β) (l : List (κ × β)) : Table κ β :=
  l.foldl (fun t e => t.put e.1 e.2) t

/-- The table that a list of entries writes, first to last. -/
def ofList (l : List (κ × β)) : Table κ β := putAll ∅ l

theorem lookIn_eq_some_of_mem {k : κ} {v : β} {l : List (κ × β)}
    (h : (l.map Prod.fst).Nodup) (hm : (k, v) ∈ l) : lookIn k l = some v := by
  induction l with
  | nil => simp at hm
  | cons e l ih =>
    obtain ⟨he, hl⟩ := List.nodup_cons.1 h
    rcases List.mem_cons.1 hm with rfl | hm
    · simp [lookIn]
    · have : e.1 ≠ k := fun hk => he (hk ▸ List.mem_map.2 ⟨(k, v), hm, rfl⟩)
      simp [lookIn, this, ih hl hm]

theorem mem_of_lookIn_eq_some {k : κ} {v : β} {l : List (κ × β)} (h : lookIn k l = some v) :
    (k, v) ∈ l := by
  induction l with
  | nil => simp [lookIn] at h
  | cons e l ih =>
    unfold lookIn at h
    split at h
    · rename_i hk
      cases h
      exact List.mem_cons.2 (.inl (by rw [← hk]))
    · exact List.mem_cons.2 (.inr (ih h))

/-- A key has a value exactly when the pair is an entry. -/
theorem get?_eq_some_iff {t : Table κ β} {k : κ} {v : β} :
    t.get? k = some v ↔ (k, v) ∈ t.entries :=
  ⟨mem_of_lookIn_eq_some, lookIn_eq_some_of_mem t.nodup⟩

/-- Whether two tables hold the same value for every key, whatever their order. -/
def sameEntries [DecidableEq β] (s t : Table κ β) : Bool :=
  s.size == t.size && s.entries.all fun e => t.get? e.1 == some e.2

end Table

end Automata
