import Automata.Allocator
import Mathlib.Data.List.Nodup
import Mathlib.Data.List.Perm.Subperm

/-! # Names handed out by allocators

Numbers are written in one way only, so that different numbers name different states. An allocator
only moves forward: whatever it hands out lies between its counter before and its counter after,
and is none of the reserved names. How many states it has left is settled by the allocator alone.
-/

namespace Automata.Allocator

private theorem repr_injective {m n : Nat} (same : m.repr = n.repr) : m = n := by
  have digits : Nat.toDigits 10 m = Nat.toDigits 10 n := by
    simpa using congrArg String.toList same
  simpa using congrArg (Nat.ofDigitChars 10 · 0) digits

private theorem isDigit_of_mem_repr {n : Nat} {c : Char} (member : c ∈ n.repr.toList) :
    c.isDigit = true := by
  rw [Nat.toList_repr] at member
  exact Nat.isDigit_of_mem_toDigits (by omega) (by omega) member

theorem isDigit_of_mem_toString {i : Int} {c : Char} (member : c ∈ (toString i).toList) :
    c.isDigit = true ∨ c = '-' := by
  cases i with
  | ofNat n => exact .inl (isDigit_of_mem_repr member)
  | negSucc n =>
      have member : c ∈ ("-" ++ (n + 1).repr).toList := member
      rw [String.toList_append, List.mem_append] at member
      rcases member with sign | digit
      · exact .inr (List.mem_singleton.mp sign)
      · exact .inl (isDigit_of_mem_repr digit)

private theorem exists_digit_repr (n : Nat) : ∃ c ∈ n.repr.toList, c.isDigit = true := by
  have some : n.repr.toList ≠ [] := by
    rw [Nat.toList_repr]
    exact Nat.toDigits_ne_nil
  obtain ⟨c, member⟩ := List.exists_mem_of_ne_nil _ some
  exact ⟨c, member, isDigit_of_mem_repr member⟩

/-- The name of a numbered state holds a digit. -/
theorem any_isDigit_state (a : Allocator) (i : Int) :
    (a.state i).name.toList.any Char.isDigit = true := by
  have numeral : ∃ c ∈ (toString i).toList, c.isDigit = true := by
    cases i with
    | ofNat n => exact exists_digit_repr n
    | negSucc n =>
        obtain ⟨c, member, digit⟩ := exists_digit_repr (n + 1)
        have inside : c ∈ ("-" ++ (n + 1).repr).toList := by
          rw [String.toList_append]
          exact List.mem_append_right _ member
        exact ⟨c, inside, digit⟩
  obtain ⟨c, member, digit⟩ := numeral
  rw [List.any_eq_true, state, String.toList_append]
  exact ⟨c, List.mem_append_right _ member, digit⟩

private theorem repr_ne_minus (m n : Nat) : m.repr ≠ "-" ++ n.repr := by
  intro same
  have minus : '-' ∈ m.repr.toList := by simp [same]
  exact absurd (isDigit_of_mem_repr minus) (by decide)

theorem toString_injective {i j : Int} (same : toString i = toString j) : i = j := by
  cases i with
  | ofNat m =>
      cases j with
      | ofNat n => exact congrArg Int.ofNat (repr_injective same)
      | negSucc n => exact absurd same (repr_ne_minus m (n + 1))
  | negSucc m =>
      cases j with
      | ofNat n => exact absurd same.symm (repr_ne_minus n (m + 1))
      | negSucc n =>
          have same : "-" ++ (m + 1).repr = "-" ++ (n + 1).repr := same
          have := repr_injective ((String.append_right_inj _).mp same)
          simpa using this

theorem state_injective (a : Allocator) {i j : Int} (same : a.state i = a.state j) : i = j :=
  toString_injective ((String.append_right_inj _).mp (congrArg State.name same))

theorem allows_iff {a : Allocator} {i n : Int} (limited : a.largest = some n) :
    a.allows i = true ↔ -n ≤ i ∧ i ≤ n := by
  rw [allows, limited, Option.all_some, decide_eq_true_iff]

/-! ### The first free number -/

theorem firstFree_spec (a : Allocator) (bound : Nat) (i : Int) :
    i ≤ a.firstFree bound i ∧
      (∀ k, i ≤ k → k < a.firstFree bound i → a.allows k = true ∧ a.state k ∈ a.reserved) ∧
      (a.firstFree bound i = i + bound ∨
        ¬ (a.allows (a.firstFree bound i) = true ∧
          a.state (a.firstFree bound i) ∈ a.reserved)) := by
  induction bound generalizing i with
  | zero => exact ⟨Int.le_refl i, fun k low high => absurd low (by simp [firstFree] at high; omega),
      .inl (by simp [firstFree])⟩
  | succ bound ih =>
      by_cases taken : a.allows i = true ∧ a.state i ∈ a.reserved
      · obtain ⟨le, passed, stop⟩ := ih (i + 1)
        rw [firstFree, if_pos taken]
        refine ⟨by omega, fun k low high => ?_, stop.imp_left fun full => by omega⟩
        rcases Int.lt_or_eq_of_le low with above | rfl
        · exact passed k above high
        · exact taken
      · rw [firstFree, if_neg taken]
        exact ⟨Int.le_refl i, fun k low high => absurd low (by omega), .inr taken⟩

/-- A run of reserved names is no longer than the reserved set. -/
theorem le_size_of_reserved (a : Allocator) (i : Int) (n : Nat)
    (taken : ∀ k, i ≤ k → k < i + n → a.state k ∈ a.reserved) : n ≤ a.reserved.size := by
  let names := (List.range n).map fun m : Nat => a.state (i + m)
  have nodup : names.Nodup := by
    apply List.Nodup.map _ List.nodup_range
    intro l m same
    have := a.state_injective same
    omega
  have inside : names ⊆ a.reserved.toList := by
    intro p member
    obtain ⟨m, small, rfl⟩ := List.mem_map.mp member
    have small := List.mem_range.mp small
    exact taken _ (by omega) (by omega)
  simpa [names, SortedSet.size] using (List.subperm_of_subset nodup inside).length_le

theorem firstFree_not_reserved (a : Allocator)
    (allowed : a.allows (a.firstFree a.reserved.size a.next) = true) :
    a.state (a.firstFree a.reserved.size a.next) ∉ a.reserved := by
  obtain ⟨_, passed, stop⟩ := a.firstFree_spec a.reserved.size a.next
  intro member
  rcases stop with full | free
  · -- every number up to the bound is taken, which is one name too many
    have := a.le_size_of_reserved a.next (a.reserved.size + 1) fun k low high => by
      rcases Int.lt_or_eq_of_le (show k ≤ a.firstFree a.reserved.size a.next by omega) with h | h
      · exact (passed k low h).2
      · exact h ▸ member
    omega
  · exact free ⟨allowed, member⟩

/-! ### Moving forward -/

/-- The second allocator is the first one after some draws. -/
structure Before (a b : Allocator) : Prop where
  stem_eq : b.stem = a.stem
  reserved_eq : b.reserved = a.reserved
  largest_eq : b.largest = a.largest
  next_le : a.next ≤ b.next

/-- A state is drawn on the way from one allocator to a later one. -/
def Drawn (a b : Allocator) (p : State) : Prop :=
  ∃ i, a.next ≤ i ∧ i < b.next ∧ p = a.state i

/-- A state that an allocator may still hand out. -/
def Offers (a : Allocator) (p : State) : Prop :=
  p ∉ a.reserved ∧ ∃ i, a.next ≤ i ∧ p = a.state i

/-- A state that an allocator does not hand out any more. -/
def Past (a : Allocator) (p : State) : Prop := ∀ i, a.next ≤ i → p ≠ a.state i

variable {a b c : Allocator} {p q : State}

namespace Before

theorem refl (a : Allocator) : a.Before a := ⟨rfl, rfl, rfl, Int.le_refl _⟩

theorem trans (h : a.Before b) (k : b.Before c) : a.Before c :=
  ⟨k.stem_eq.trans h.stem_eq, k.reserved_eq.trans h.reserved_eq, k.largest_eq.trans h.largest_eq,
    Int.le_trans h.next_le k.next_le⟩

theorem state_eq (h : a.Before b) (i : Int) : b.state i = a.state i := by
  rw [state, state, h.stem_eq]

theorem offers (h : a.Before b) (offered : b.Offers p) : a.Offers p := by
  obtain ⟨free, i, low, rfl⟩ := offered
  exact ⟨h.reserved_eq ▸ free, i, Int.le_trans h.next_le low, h.state_eq i⟩

end Before

namespace Drawn

theorem offers (h : a.Drawn b p) (free : p ∉ a.reserved) : a.Offers p := by
  obtain ⟨i, low, _, rfl⟩ := h
  exact ⟨free, i, low, rfl⟩

theorem right (h : a.Drawn b p) (k : b.Before c) : a.Drawn c p := by
  obtain ⟨i, low, high, rfl⟩ := h
  exact ⟨i, low, Int.lt_of_lt_of_le high k.next_le, rfl⟩

theorem left (h : a.Before b) (k : b.Drawn c p) : a.Drawn c p := by
  obtain ⟨i, low, high, rfl⟩ := k
  exact ⟨i, Int.le_trans h.next_le low, high, h.state_eq i⟩

/-- A name without digits is never drawn. -/
theorem ne_of_not_isDigit (h : a.Drawn b p) (letters : q.name.toList.any Char.isDigit = false) :
    p ≠ q := by
  rintro rfl
  obtain ⟨i, _, _, rfl⟩ := h
  rw [a.any_isDigit_state i] at letters
  cases letters

/-- What has been drawn is not handed out again. -/
theorem past (h : a.Drawn b p) (ab : a.Before b) : b.Past p := by
  obtain ⟨i, _, high, rfl⟩ := h
  intro j low same
  rw [ab.state_eq] at same
  have := a.state_injective same
  omega

end Drawn

namespace Past

theorem mono (h : a.Past p) (ab : a.Before b) : b.Past p := by
  intro i low
  rw [ab.state_eq]
  exact h i (Int.le_trans ab.next_le low)

theorem not_drawn (h : a.Past p) : ¬ a.Drawn b p := by
  rintro ⟨i, low, _, same⟩
  exact h i low same

theorem not_offers (h : a.Past p) : ¬ a.Offers p := by
  rintro ⟨_, i, low, same⟩
  exact h i low same

end Past

theorem before_take (a : Allocator) : a.Before a.take.2 := by
  have := (a.firstFree_spec a.reserved.size a.next).1
  exact ⟨rfl, rfl, rfl, by dsimp [take]; omega⟩

theorem take_ok (h : a.take = (.ok p, b)) : a.Drawn b p ∧ p ∉ a.reserved := by
  rw [take] at h
  have le := (a.firstFree_spec a.reserved.size a.next).1
  by_cases allowed : a.allows (a.firstFree a.reserved.size a.next) = true
  · rw [if_pos allowed] at h
    cases h
    exact ⟨⟨_, le, by dsimp; omega, rfl⟩, a.firstFree_not_reserved allowed⟩
  · rw [if_neg allowed] at h
    cases h

theorem take_error {e : Error} (h : a.take = (.error e, b)) :
    e = .numbersExhausted ∧ a.largest ≠ none := by
  rw [take] at h
  split at h
  · cases h
  · rename_i refused
    cases h
    refine ⟨rfl, fun endless => refused ?_⟩
    simp [allows, endless]

/-- Past its largest number an allocator hands out nothing. -/
theorem take_of_largest_lt {n : Int} (limited : a.largest = some n) (past : n < a.next) :
    a.take.1 = .error .numbersExhausted := by
  have le := (a.firstFree_spec a.reserved.size a.next).1
  refine if_neg fun allowed => ?_
  rw [allows_iff limited] at allowed
  omega

/-! ### What is left -/

/-- An allocator hands out states one after the other and becomes another one. -/
inductive HandsOut : Allocator → List State → Allocator → Prop where
  | nil {a : Allocator} : HandsOut a [] a
  | cons {a b c : Allocator} {p : State} {ps : List State} :
      a.take = (.ok p, b) → HandsOut b ps c → HandsOut a (p :: ps) c

/-- An allocator has a number of states left to hand out. -/
def Supplies (a : Allocator) (k : Nat) : Prop := ∃ ps b, ps.length = k ∧ a.HandsOut ps b

variable {ps qs : List State} {j k : Nat}

namespace HandsOut

theorem append (first : a.HandsOut ps b) (second : b.HandsOut qs c) :
    a.HandsOut (ps ++ qs) c := by
  induction first with
  | nil => exact second
  | cons taken _ ih => exact .cons taken (ih second)

theorem of_append (all : a.HandsOut (ps ++ qs) c) : ∃ b, a.HandsOut ps b ∧ b.HandsOut qs c := by
  induction ps generalizing a with
  | nil => exact ⟨a, .nil, all⟩
  | cons p ps ih =>
      cases all with
      | cons taken rest =>
          obtain ⟨b, first, second⟩ := ih rest
          exact ⟨b, .cons taken first, second⟩

/-- What is handed out is settled by how much it is. -/
theorem unique (first : a.HandsOut ps b) (second : a.HandsOut qs c)
    (length : ps.length = qs.length) : ps = qs ∧ b = c := by
  induction first generalizing qs with
  | nil =>
      obtain rfl := List.eq_nil_of_length_eq_zero length.symm
      cases second
      exact ⟨rfl, rfl⟩
  | cons taken _ ih =>
      cases second with
      | nil => cases length
      | cons taken' rest =>
          cases taken.symm.trans taken'
          obtain ⟨rfl, rfl⟩ := ih rest (Nat.succ.inj length)
          exact ⟨rfl, rfl⟩

end HandsOut

theorem Supplies.left (h : a.Supplies (j + k)) : a.Supplies j := by
  obtain ⟨ps, c, length, all⟩ := h
  rw [← List.take_append_drop j ps] at all
  obtain ⟨b, first, _⟩ := all.of_append
  exact ⟨ps.take j, b, List.length_take_of_le (by omega), first⟩

/-- After some states have been handed out, the others are left. -/
theorem Supplies.after (h : a.Supplies (ps.length + k)) (first : a.HandsOut ps b) :
    b.Supplies k := by
  obtain ⟨qs, c, length, all⟩ := h
  rw [← List.take_append_drop ps.length qs] at all
  obtain ⟨d, start, rest⟩ := all.of_append
  obtain ⟨-, rfl⟩ := first.unique start (List.length_take_of_le (by omega)).symm
  exact ⟨qs.drop ps.length, c, by simp [length], rest⟩

/-- No more states are handed out than there are numbers up to the largest one. -/
theorem HandsOut.length_le {n : Int} (handed : a.HandsOut ps b) (limited : a.largest = some n)
    (within : a.next ≤ n + 1) : a.next + ps.length ≤ n + 1 := by
  induction handed with
  | nil => simpa using within
  | @cons a b c p ps taken _ ih =>
      have first := (a.firstFree_spec a.reserved.size a.next).1
      rw [take] at taken
      split at taken
      · rename_i allowed
        cases taken
        rw [allows_iff limited] at allowed
        have rest := ih limited (by dsimp only; omega)
        dsimp only at rest
        rw [List.length_cons]
        omega
      · cases taken

theorem not_supplies_of_largest {n : Int} (limited : a.largest = some n) (within : a.next ≤ n + 1)
    (many : n + 1 < a.next + k) : ¬ a.Supplies k := by
  rintro ⟨ps, b, rfl, handed⟩
  have := handed.length_le limited within
  omega

end Automata.Allocator
