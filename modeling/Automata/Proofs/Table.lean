import Automata.Table
import Mathlib.Data.List.Basic
import Mathlib.Data.List.Induction

/-! # Reading tables

A list with different keys is written into a table as it stands. Filtering a table only hides
entries, and writing values that are computed from their keys hides what was there before.
-/

namespace Automata.Table

variable {κ β : Type*} [DecidableEq κ] {l : List (κ × β)} {t : Table κ β} {k : κ} {v : β}

omit [DecidableEq κ] in
/-- Tables with the same entries in the same order are equal. -/
@[ext] theorem ext {s t : Table κ β} (same : s.entries = t.entries) : s = t := by
  cases s
  cases t
  cases same
  rfl

theorem ofList_append {l' : List (κ × β)} : ofList (l ++ l') = (ofList l).putAll l' :=
  List.foldl_append

theorem putIn_of_not_mem (new : k ∉ l.map Prod.fst) : putIn k v l = l ++ [(k, v)] := by
  induction l with
  | nil => rfl
  | cons e l ih =>
      rw [List.map_cons, List.mem_cons, not_or] at new
      rw [putIn, if_neg (Ne.symm new.1), ih new.2, List.cons_append]

theorem entries_putAll (nodup : (t.keys ++ l.map Prod.fst).Nodup) :
    (t.putAll l).entries = t.entries ++ l := by
  induction l generalizing t with
  | nil => simp [putAll]
  | cons e l ih =>
      have new : e.1 ∉ t.keys := fun old =>
        (List.nodup_append.mp nodup).2.2 e.1 old e.1 (by simp) rfl
      have entries : (t.put e.1 e.2).entries = t.entries ++ [e] := putIn_of_not_mem new
      have step : t.putAll (e :: l) = (t.put e.1 e.2).putAll l := rfl
      rw [step, ih, entries, List.append_assoc]
      · rfl
      · simpa [keys, entries] using nodup

theorem entries_ofList (nodup : (l.map Prod.fst).Nodup) : (ofList l).entries = l :=
  entries_putAll (t := ∅) nodup

theorem putIn_of_mem (nodup : (l.map Prod.fst).Nodup) (entry : (k, v) ∈ l) : putIn k v l = l := by
  induction l with
  | nil => cases entry
  | cons e l ih =>
      rw [List.map_cons, List.nodup_cons] at nodup
      rcases List.mem_cons.mp entry with rfl | later
      · rw [putIn, if_pos rfl]
      · have other : e.1 ≠ k := fun same =>
          nodup.1 (List.mem_map.mpr ⟨(k, v), later, same.symm⟩)
        rw [putIn, if_neg other, ih nodup.2 later]

/-- Values that are computed from their keys are replaced one at a time. -/
theorem putIn_map {l : List κ} {f : κ → β} (nodup : l.Nodup) (member : k ∈ l) :
    putIn k v (l.map fun j => (j, f j)) = l.map fun j => (j, if j = k then v else f j) := by
  induction l with
  | nil => cases member
  | cons j l ih =>
      obtain ⟨once, nodup⟩ := List.nodup_cons.mp nodup
      by_cases here : j = k
      · subst here
        have others : ∀ i ∈ l, i ≠ j := fun i later same => once (same ▸ later)
        simp +contextual [putIn, others]
      · have later : k ∈ l := (List.mem_cons.mp member).resolve_left (Ne.symm here)
        simp [putIn, here, ih nodup later]

/-- Writing entries that are there already changes nothing. -/
theorem putAll_of_mem (known : ∀ e ∈ l, e ∈ t.entries) : t.putAll l = t := by
  induction l with
  | nil => rfl
  | cons e l ih =>
      have here : t.put e.1 e.2 = t := ext (putIn_of_mem t.nodup (known e List.mem_cons_self))
      have step : t.putAll (e :: l) = (t.put e.1 e.2).putAll l := rfl
      rw [step, here]
      exact ih fun e later => known e (List.mem_cons_of_mem _ later)

/-- Blocks of entries are written in the order of their representatives, if each representative
    comes no later than the elements that it stands for. -/
theorem entries_ofList_flatMap {α : Type*} [DecidableEq α] {xs : List α} {rep : α → α}
    {block : α → List (κ × β)} (inside : ∀ x ∈ xs, rep x ∈ xs)
    (rep_rep : ∀ x ∈ xs, rep (rep x) = rep x) (earlier : xs.Pairwise fun x y => rep x ≠ y)
    (nodup : (xs.filter fun x => decide (rep x = x)).flatMap block |>.map Prod.fst |>.Nodup) :
    (ofList (xs.flatMap fun x => block (rep x))).entries =
      (xs.filter fun x => decide (rep x = x)).flatMap block := by
  induction xs using List.reverseRecOn with
  | nil => rfl
  | append_singleton xs x ih =>
      obtain ⟨earlier, _, last⟩ := List.pairwise_append.mp earlier
      have inside' : ∀ y ∈ xs, rep y ∈ xs := by
        intro y member
        have other : rep y ≠ x := last y member x List.mem_cons_self
        have either := inside y (List.mem_append_left _ member)
        simpa [other] using either
      have rep_rep' : ∀ y ∈ xs, rep (rep y) = rep y := fun y member =>
        rep_rep y (List.mem_append_left _ member)
      have split : ofList ((xs ++ [x]).flatMap fun x => block (rep x)) =
          (ofList (xs.flatMap fun x => block (rep x))).putAll (block (rep x)) := by
        rw [List.flatMap_append, List.flatMap_singleton, ofList_append]
      rw [split]
      by_cases fixed : rep x = x
      · have filtered : (xs ++ [x]).filter (fun x => decide (rep x = x)) =
            xs.filter (fun x => decide (rep x = x)) ++ [x] := by simp [fixed]
        rw [filtered, List.flatMap_append, List.flatMap_singleton] at nodup ⊢
        have before := ih inside' rep_rep' earlier
          (nodup.sublist (List.Sublist.map _ (List.sublist_append_left _ _)))
        rw [List.map_append, ← before] at nodup
        rw [fixed, entries_putAll nodup, before]
      · have filtered : (xs ++ [x]).filter (fun x => decide (rep x = x)) =
            xs.filter (fun x => decide (rep x = x)) := by simp [fixed]
        have member : rep x ∈ xs := by simpa [fixed] using inside x (by simp)
        rw [filtered] at nodup ⊢
        have before := ih inside' rep_rep' earlier nodup
        rw [putAll_of_mem, before]
        intro e entry
        rw [before]
        exact List.mem_flatMap.mpr
          ⟨rep x, List.mem_filter.mpr ⟨member, decide_eq_true (rep_rep x (by simp))⟩, entry⟩

theorem mem_keys_iff : k ∈ t.keys ↔ ∃ v, t.get? k = some v := by
  simp only [keys, List.mem_map, get?_eq_some_iff]
  constructor
  · intro h
    obtain ⟨e, entry, rfl⟩ := h
    exact ⟨e.2, entry⟩
  · intro h
    obtain ⟨v, entry⟩ := h
    exact ⟨(k, v), entry, rfl⟩

theorem get?_filter {p : κ → β → Bool} : (t.filter p).get? k = (t.get? k).filter (p k) := by
  apply Option.ext
  intro v
  rw [Option.filter_eq_some_iff, get?_eq_some_iff, get?_eq_some_iff]
  exact List.mem_filter

theorem get?_filterKeys {p : κ → Bool} :
    (t.filterKeys p).get? k = if p k = true then t.get? k else none := by
  apply Option.ext
  intro v
  by_cases passes : p k = true
  · rw [if_pos passes, get?_eq_some_iff, get?_eq_some_iff]
    simp [filterKeys, passes]
  · rw [if_neg passes, get?_eq_some_iff]
    simp [filterKeys, passes]

theorem get?_putAll_map {l : List κ} {f : κ → β} :
    (t.putAll (l.map fun k => (k, f k))).get? k = if k ∈ l then some (f k) else t.get? k := by
  induction l generalizing t with
  | nil => simp [putAll]
  | cons j l ih =>
      have step : t.putAll ((j :: l).map fun k => (k, f k)) =
          (t.put j (f j)).putAll (l.map fun k => (k, f k)) := rfl
      rw [step, ih, get?_put]
      by_cases later : k ∈ l
      · simp [later]
      · by_cases here : j = k
        · simp [here]
        · simp [later, here, Ne.symm here]

theorem mem_of_get?_putAll (found : (t.putAll l).get? k = some v) :
    (k, v) ∈ l ∨ t.get? k = some v := by
  induction l generalizing t with
  | nil => exact .inr found
  | cons e l ih =>
      rcases ih (t := t.put e.1 e.2) found with later | here
      · exact .inl (List.mem_cons_of_mem e later)
      · rw [get?_put] at here
        split at here
        · rename_i same
          obtain rfl := Option.some_inj.mp here
          exact .inl (same ▸ List.mem_cons_self)
        · exact .inr here

theorem get?_putAll_of_not_mem (other : ∀ e ∈ l, e.1 ≠ k) : (t.putAll l).get? k = t.get? k := by
  induction l generalizing t with
  | nil => rfl
  | cons e l ih =>
      have step : t.putAll (e :: l) = (t.put e.1 e.2).putAll l := rfl
      rw [step, ih fun e' later => other e' (List.mem_cons_of_mem e later), get?_put,
        if_neg (other e List.mem_cons_self)]

/-- Repeated keys do no harm when they come with equal values. -/
theorem get?_putAll_of_mem (written : (k, v) ∈ l ∨ t.get? k = some v)
    (unique : ∀ u, (k, u) ∈ l → u = v) : (t.putAll l).get? k = some v := by
  induction l generalizing t with
  | nil => exact written.resolve_left List.not_mem_nil
  | cons e l ih =>
      have step : t.putAll (e :: l) = (t.put e.1 e.2).putAll l := rfl
      rw [step]
      refine ih ?_ fun u later => unique u (List.mem_cons_of_mem e later)
      rw [get?_put]
      by_cases here : e.1 = k
      · rw [if_pos here, unique e.2 (here ▸ List.mem_cons_self)]
        exact .inr rfl
      · rw [if_neg here]
        refine written.imp_left fun member => (List.mem_cons.mp member).resolve_left ?_
        rintro rfl
        exact here rfl

/-- What is written last under a key is there. -/
theorem exists_get?_ofList (written : k ∈ l.map Prod.fst) : ∃ v, (ofList l).get? k = some v := by
  induction l using List.reverseRecOn with
  | nil => cases written
  | append_singleton l e ih =>
      have step : ofList (l ++ [e]) = (ofList l).put e.1 e.2 := ofList_append
      rw [step, get?_put]
      by_cases here : e.1 = k
      · exact ⟨e.2, if_pos here⟩
      · rw [if_neg here]
        apply ih
        rw [List.map_append, List.mem_append] at written
        exact written.resolve_right fun last => here (List.mem_singleton.mp last).symm

theorem mem_of_get?_ofList (found : (ofList l).get? k = some v) : (k, v) ∈ l :=
  (mem_of_get?_putAll found).resolve_right fun old => by cases old

theorem get?_ofList_of_functional (functional : ∀ u v, (k, u) ∈ l → (k, v) ∈ l → u = v) :
    (ofList l).get? k = some v ↔ (k, v) ∈ l := by
  constructor
  · exact mem_of_get?_ofList
  · intro member
    exact get?_putAll_of_mem (.inl member) fun u other => functional u v other member

end Automata.Table
