import Automata.Proofs.GNFA.Eliminate
import Mathlib.Data.List.ProdSigma

/-! # What the cost of ripping a state counts

The cost is a product of degrees, and the new labels are written for all pairs of a state that leads
in and a state that is led to. Both come to the same number, since a label other than null is a
listed pair. Nothing else changes, which bounds the number of pairs that are listed afterwards.
-/

open scoped Computability

namespace Automata

namespace PairLabels

variable {d : PairLabels} {p : State}

/-- Every listed pair avoids a state, enters it, leaves it or stays at it. -/
theorem avoiding_add_degrees_le (d : PairLabels) (p : State) :
    (d.table.keys.filter fun k => decide (k.1 ≠ p ∧ k.2 ≠ p)).length + d.inDegree p +
      d.outDegree p ≤ d.table.size := by
  have size : d.table.size = d.table.keys.length := (List.length_map _).symm
  rw [size, inDegree, outDegree]
  generalize d.table.keys = keys
  induction keys with
  | nil => simp
  | cons k keys ih =>
      by_cases source : k.1 = p <;> by_cases target : k.2 = p <;>
        simp [source, target] at ih ⊢ <;> omega

/-- Listed pairs of some kind are as many as the states by which they can be told apart. -/
theorem length_filter_keys {l : List State} {kind : State × State → Bool}
    {f : State × State → State} (nodup : l.Nodup)
    (apart : ∀ j k, kind j = true → kind k = true → f j = f k → j = k)
    (members : ∀ s, s ∈ l ↔ ∃ k ∈ d.table.keys, kind k = true ∧ f k = s) :
    (d.table.keys.filter kind).length = l.length := by
  have distinct : ((d.table.keys.filter kind).map f).Nodup := by
    refine List.Nodup.map_on (fun j first k second => ?_) (d.table.nodup.filter _)
    exact apart j k (List.mem_filter.mp first).2 (List.mem_filter.mp second).2
  have same : ((d.table.keys.filter kind).map f).Perm l := by
    refine (List.perm_ext_iff_of_nodup distinct nodup).mpr fun s => ?_
    simp only [members, List.mem_map, List.mem_filter, and_assoc]
  rw [← same.length_eq, List.length_map]

/-- The in-degree counts the other states with a label to the state. -/
theorem inDegree_eq_length {l : List State} (nodup : l.Nodup)
    (enters : ∀ s, s ∈ l ↔ s ≠ p ∧ d.label s p ≠ .null) : d.inDegree p = l.length := by
  refine length_filter_keys (f := Prod.fst) nodup (fun j k first second same => ?_) fun s => ?_
  · simp only [decide_eq_true_eq] at first second
    exact Prod.ext same (first.1.trans second.1.symm)
  · simp [enters, ← mem_keys_iff, and_comm]

/-- The out-degree counts the other states with a label from the state. -/
theorem outDegree_eq_length {l : List State} (nodup : l.Nodup)
    (leaves : ∀ t, t ∈ l ↔ t ≠ p ∧ d.label p t ≠ .null) : d.outDegree p = l.length := by
  refine length_filter_keys (f := Prod.snd) nodup (fun j k first second same => ?_) fun t => ?_
  · simp only [decide_eq_true_eq] at first second
    exact Prod.ext (first.1.trans second.1.symm) same
  · simp [leaves, ← mem_keys_iff, and_comm]

end PairLabels

namespace GNFA

variable {g : GNFA} {p s t : State}

/-- The other states with a label to a state. -/
def entering (g : GNFA) (p : State) : List State :=
  (g.states.diff (.singleton p)).toList.filter fun s => !(g.labels.label s p).isNull

/-- The other states with a label from a state. -/
def leaving (g : GNFA) (p : State) : List State :=
  (g.states.diff (.singleton p)).toList.filter fun t => !(g.labels.label p t).isNull

theorem bypassed_eq (g : GNFA) (p : State) : g.bypassed p = g.entering p ×ˢ g.leaving p := rfl

theorem mem_entering : s ∈ g.entering p ↔ s ≠ p ∧ g.labels.label s p ≠ .null := by
  rw [entering, List.mem_filter, Bool.not_eq_true', ← Bool.not_eq_true, Regex.isNull_iff,
    SortedSet.mem_toList, SortedSet.mem_diff, SortedSet.mem_singleton]
  exact ⟨fun h => ⟨h.1.2, h.2⟩, fun h => ⟨⟨(label_inside h.2).1, h.1⟩, h.2⟩⟩

theorem mem_leaving : t ∈ g.leaving p ↔ t ≠ p ∧ g.labels.label p t ≠ .null := by
  rw [leaving, List.mem_filter, Bool.not_eq_true', ← Bool.not_eq_true, Regex.isNull_iff,
    SortedSet.mem_toList, SortedSet.mem_diff, SortedSet.mem_singleton]
  exact ⟨fun h => ⟨h.1.2, h.2⟩, fun h => ⟨⟨(label_inside h.2).2.1, h.1⟩, h.2⟩⟩

theorem nodup_entering : (g.entering p).Nodup := (SortedSet.nodup_toList _).filter _

theorem nodup_leaving : (g.leaving p).Nodup := (SortedSet.nodup_toList _).filter _

theorem nodup_bypassed : (g.bypassed p).Nodup := nodup_entering.product nodup_leaving

/-- The product of the degrees is the number of pairs that get a new label. -/
theorem cost_eq_length : g.cost p = (g.bypassed p).length := by
  have into : g.labels.inDegree p = (g.entering p).length :=
    PairLabels.inDegree_eq_length nodup_entering fun _ => mem_entering
  have out : g.labels.outDegree p = (g.leaving p).length :=
    PairLabels.outDegree_eq_length nodup_leaving fun _ => mem_leaving
  rw [cost, into, out, bypassed_eq, List.length_product, Nat.mul_comm]

theorem repairCost_ok (interior : p ∈ g.interior) :
    g.repairCost p = .ok (g.bypassed p).length := by
  rw [repairCost, checkInterior_ok interior, ← cost_eq_length]
  rfl

/-! ### The labels afterwards -/

theorem label_ripped_of_bypassed {interior : p ∈ g.interior} (through : (s, t) ∈ g.bypassed p) :
    (g.ripped p interior).labels.label s t = g.bypass p (s, t) :=
  label_rippedDiagram.trans (if_pos through)

theorem label_ripped_of_not_bypassed {interior : p ∈ g.interior} (source : s ≠ p) (target : t ≠ p)
    (apart : (s, t) ∉ g.bypassed p) :
    (g.ripped p interior).labels.label s t = g.labels.label s t :=
  label_rippedDiagram.trans (by rw [if_neg apart, if_pos ⟨source, target⟩])

/-- If something leads into a state and something leads on from it, then the new label matches
    both of them one after the other. -/
theorem label_ripped_ne_null {interior : p ∈ g.interior} {u v : List Char} (source : s ≠ p)
    (target : t ≠ p) (enters : u ∈ g.step s p) (leaves : v ∈ g.step p t) :
    (g.ripped p interior).labels.label s t ≠ .null := by
  intro null
  have through : u ++ v ∈ (g.ripped p interior).step s t := by
    rw [step_ripped source target, Language.mem_add]
    exact .inr (Language.append_mem_mul enters
      (Language.append_mem_mul (Language.nil_mem_kstar _) leaves))
  rw [step_eq_zero null] at through
  exact Language.notMem_zero _ through

/-- The pairs that are listed afterwards avoid the ripped state or have got a new label. -/
theorem size_ripped_le (interior : p ∈ g.interior) :
    (g.ripped p interior).labels.table.size ≤
      (g.labels.table.keys.filter fun k => decide (k.1 ≠ p ∧ k.2 ≠ p)).length +
        (g.bypassed p).length := by
  have size : (g.ripped p interior).labels.table.size =
      (g.ripped p interior).labels.table.keys.length := (List.length_map _).symm
  rw [size, ← List.length_append]
  refine (List.subperm_of_subset (g.ripped p interior).labels.table.nodup ?_).length_le
  rintro ⟨s, t⟩ listed
  have label := PairLabels.mem_keys_iff.mp listed
  by_cases through : (s, t) ∈ g.bypassed p
  · exact List.mem_append_right _ through
  · obtain ⟨source, target, _⟩ := label_inside label
    obtain ⟨_, source⟩ := mem_states_ripped.mp source
    obtain ⟨_, target⟩ := mem_states_ripped.mp target
    rw [label_ripped_of_not_bypassed source target through] at label
    refine List.mem_append_left _ (List.mem_filter.mpr ⟨PairLabels.mem_keys_iff.mpr label, ?_⟩)
    exact decide_eq_true ⟨source, target⟩

/-- What it costs to rip an interior state is the number of pairs that get a new label: a state that
    leads in and one that is led to, both of them others. If all labels match something, no new one
    is null, and all other labels between states that are left stay as they are. So what is listed
    afterwards is no more than the cost and what was listed before, without the pairs that enter or
    leave the state. -/
theorem repairCost_counts (g : GNFA) (p : State) (interior : p ∈ g.interior) :
    ∃ cost h, g.repairCost p = .ok cost ∧ g.rip p = .ok h ∧
      (∀ q, q ∈ h.states ↔ q ∈ g.states ∧ q ≠ p) ∧
      (g.bypassed p).length = cost ∧ (g.bypassed p).Nodup ∧
      (∀ s t, (s, t) ∈ g.bypassed p ↔ s ∈ h.states ∧ t ∈ h.states ∧
        g.labels.label s p ≠ .null ∧ g.labels.label p t ≠ .null) ∧
      (∀ s t, (s, t) ∈ g.bypassed p → h.labels.label s t = g.bypass p (s, t)) ∧
      ((∀ s t, g.labels.label s t ≠ .null →
          ∃ w, Regex.Matches g.alphabet (g.labels.label s t) w) →
        ∀ s t, (s, t) ∈ g.bypassed p → h.labels.label s t ≠ .null) ∧
      (∀ s ∈ h.states, ∀ t ∈ h.states, (s, t) ∉ g.bypassed p →
        h.labels.label s t = g.labels.label s t) ∧
      h.labels.table.size + (g.labels.inDegree p + g.labels.outDegree p) ≤
        g.labels.table.size + cost := by
  refine ⟨_, g.ripped p interior, repairCost_ok interior, rip_ok interior,
    fun q => mem_states_ripped, rfl, nodup_bypassed, fun s t => ?_,
    fun s t => label_ripped_of_bypassed, fun inhabited s t through => ?_,
    fun s source t target => ?_, ?_⟩
  · rw [mem_bypassed, mem_states_ripped, mem_states_ripped]
    constructor
    · intro ⟨source, target, enters, leaves⟩
      exact ⟨⟨(label_inside enters).1, source⟩, ⟨(label_inside leaves).2.1, target⟩, enters, leaves⟩
    · intro ⟨source, target, enters, leaves⟩
      exact ⟨source.2, target.2, enters, leaves⟩
  · obtain ⟨source, target, enters, leaves⟩ := mem_bypassed.mp through
    obtain ⟨u, first⟩ := inhabited s p enters
    obtain ⟨v, second⟩ := inhabited p t leaves
    exact label_ripped_ne_null source target first second
  · obtain ⟨_, source⟩ := mem_states_ripped.mp source
    obtain ⟨_, target⟩ := mem_states_ripped.mp target
    exact label_ripped_of_not_bypassed source target
  · have after := size_ripped_le interior
    have before := g.labels.avoiding_add_degrees_le p
    omega

/-- A state with a loop that two states lead to and that leads back to one of them: two pairs get a
    label, one of them for a state and itself. -/
theorem repairCost_counts_circle :
    let p : State := ⟨"p"⟩
    let q : State := ⟨"q"⟩
    let r : State := ⟨"r"⟩
    let s : State := ⟨"s"⟩
    let g : GNFA := {
      states := .ofList [p, q, r, s]
      alphabet := ⟨.ofList ['a', 'b'], by decide, by decide⟩
      labels := .ofList (.ofList [p, q, r, s]) [((p, q), .lit "a"), ((q, q), .lit "b"),
        ((q, r), .lit "a"), ((r, q), .empty), ((r, s), .star (.lit "b")), ((p, s), .empty)]
      start := p
      accept := s
      closed := ⟨by decide +kernel, by decide +kernel, by decide +kernel, by decide +kernel,
        by decide +kernel, by decide +kernel, by decide +kernel⟩ }
    q ∈ g.interior ∧ ∃ h, g.repairCost q = .ok 2 ∧ g.rip q = .ok h ∧
      h.labels.label p r ≠ .null ∧ h.labels.label r r ≠ .null ∧
      h.labels.label r s = .star (.lit "b") ∧ h.labels.table.size + 3 ≤ 6 + 2 := by
  intro p q r s g
  have interior : q ∈ g.interior := by decide +kernel
  obtain ⟨cost, h, repairs, ripped, states, count, _, pairs, _, inhabited, others, size⟩ :=
    g.repairCost_counts q interior
  have cost_eq : cost = 2 := count.symm.trans (by decide +kernel)
  have listed : g.labels.table.keys = [(p, q), (q, q), (q, r), (r, q), (r, s), (p, s)] := by
    decide +kernel
  have matched : ∀ t u, g.labels.label t u ≠ .null →
      ∃ w, Regex.Matches g.alphabet (g.labels.label t u) w := by
    intro t u label
    have member := PairLabels.mem_keys_iff.mpr label
    rw [listed] at member
    simp only [List.mem_cons, Prod.mk.injEq, List.not_mem_nil, or_false] at member
    rcases member with ⟨rfl, rfl⟩ | ⟨rfl, rfl⟩ | ⟨rfl, rfl⟩ | ⟨rfl, rfl⟩ | ⟨rfl, rfl⟩ | ⟨rfl, rfl⟩
    · exact ⟨['a'], .lit (by decide +kernel)⟩
    · exact ⟨['b'], .lit (by decide +kernel)⟩
    · exact ⟨['a'], .lit (by decide +kernel)⟩
    · exact ⟨[], .empty⟩
    · exact ⟨[], .starNil⟩
    · exact ⟨[], .empty⟩
  subst cost_eq
  have inside : ∀ t ∈ [p, r, s], t ∈ h.states := fun t member =>
    (states t).mpr (by revert t; decide +kernel)
  refine ⟨interior, h, repairs, ripped, inhabited matched p r ?_, inhabited matched r r ?_, ?_,
    size⟩
  · decide +kernel
  · decide +kernel
  · exact others r (inside r (by simp)) s (inside s (by simp)) (by decide +kernel)

end GNFA

end Automata
