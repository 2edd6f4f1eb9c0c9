import Automata.Proofs.GNFA.Eliminate

/-! # Ripping in any order

Elimination rips the cheapest state first, which matters for the size of the expression only.
Ripping keeps both ends and the language, whatever state is chosen, and so does ripping one state
after the other: any order in which all interior states go leaves an expression for the language.
-/

namespace Automata.GNFA

variable {g h k : GNFA} {p q : State} {gone later order : List State}

/-- One automaton is another one without some states: it has all the others, and the alphabet, both
    ends and the language are the same. -/
structure Shrinks (h g : GNFA) (gone : List State) : Prop where
  states : ∀ q, q ∈ h.states ↔ q ∈ g.states ∧ q ∉ gone
  alphabet : h.alphabet = g.alphabet
  start : h.start = g.start
  accept : h.accept = g.accept
  language : h.language = g.language

namespace Shrinks

theorem refl (g : GNFA) : g.Shrinks g [] := ⟨by simp, rfl, rfl, rfl, rfl⟩

theorem ripped (interior : p ∈ g.interior) : (g.ripped p interior).Shrinks g [p] where
  states q := by rw [mem_states_ripped, List.mem_singleton]
  alphabet := rfl
  start := rfl
  accept := rfl
  language := language_ripped

theorem trans (second : k.Shrinks h later) (first : h.Shrinks g gone) :
    k.Shrinks g (gone ++ later) where
  states q := by rw [second.states, first.states, List.mem_append, not_or, and_assoc]
  alphabet := second.alphabet.trans first.alphabet
  start := second.start.trans first.start
  accept := second.accept.trans first.accept
  language := second.language.trans first.language

theorem hasPath_iff (shrinks : h.Shrinks g gone) {w : List Char} : h.HasPath w ↔ g.HasPath w :=
  Set.ext_iff.mp shrinks.language w

/-- If just the interior states are gone, then both ends are left. -/
theorem mem_states_iff (shrinks : h.Shrinks g gone) (all : ∀ p, p ∈ gone ↔ p ∈ g.interior) :
    q ∈ h.states ↔ q = g.start ∨ q = g.accept := by
  rw [shrinks.states, all, mem_interior]
  constructor
  · rintro ⟨inside, ends⟩
    apply Classical.byContradiction
    intro between
    exact ends ⟨inside, not_or.mp between⟩
  · rintro (rfl | rfl)
    · exact ⟨g.closed.start_mem, fun between => between.2.1 rfl⟩
    · exact ⟨g.closed.accept_mem, fun between => between.2.2 rfl⟩

/-- If just the interior states are gone, then the label between the ends is left for the
    language. -/
theorem matches_iff (shrinks : h.Shrinks g gone) (all : ∀ p, p ∈ gone ↔ p ∈ g.interior)
    {w : List Char} :
    Regex.Matches g.alphabet (h.labels.label g.start g.accept) w ↔ g.HasPath w := by
  have done : h.interior.size = 0 := by
    rw [SortedSet.size, List.length_eq_zero_iff, List.eq_nil_iff_forall_not_mem]
    intro p member
    obtain ⟨inside, notStart, notAccept⟩ := mem_interior.mp member
    rw [shrinks.start] at notStart
    rw [shrinks.accept] at notAccept
    exact ((shrinks.mem_states_iff all).mp inside).elim notStart notAccept
  have label := language_of_interior_empty done
  rw [step, shrinks.language, shrinks.alphabet, shrinks.start, shrinks.accept] at label
  exact Set.ext_iff.mp label.symm w

end Shrinks

/-- Different interior states can be ripped one after the other. -/
theorem foldlM_rip_ok (distinct : order.Nodup) (inside : ∀ p ∈ order, p ∈ g.interior) :
    ∃ h, order.foldlM rip g = .ok h ∧ h.Shrinks g order := by
  induction order generalizing g with
  | nil => exact ⟨g, rfl, .refl g⟩
  | cons p order ih =>
      obtain ⟨unused, distinct⟩ := List.nodup_cons.mp distinct
      have interior : p ∈ g.interior := inside p List.mem_cons_self
      have rest : ∀ q ∈ order, q ∈ (g.ripped p interior).interior := by
        intro q member
        refine mem_interior_ripped.mpr ⟨inside q (List.mem_cons_of_mem p member), ?_⟩
        rintro rfl
        exact unused member
      obtain ⟨h, run, shrinks⟩ := ih distinct rest
      refine ⟨h, ?_, shrinks.trans (.ripped interior)⟩
      rw [List.foldlM_cons, rip_ok interior]
      exact run

/-- Every interior state can be ripped. Only this state goes then, no null label is listed, and the
    language stays. So whatever the order in which all interior states are ripped, the label that is
    left matches the words of the automaton, as the expression of the elimination does. -/
theorem rip_in_any_order (g : GNFA) :
    (∀ p ∈ g.interior, ∃ h, g.rip p = .ok h ∧ (∀ q, q ∈ h.states ↔ q ∈ g.states ∧ q ≠ p) ∧
      h.alphabet = g.alphabet ∧ h.start = g.start ∧ h.accept = g.accept ∧
      (∀ e ∈ h.labels.table.entries, e.2 ≠ .null) ∧ ∀ w, h.HasPath w ↔ g.HasPath w) ∧
    ∃ r, g.toRegex = .ok r ∧ (∀ w, Regex.Matches g.alphabet r w ↔ g.HasPath w) ∧
      ∀ order : List State, order.Perm g.interior.toList → ∃ h, order.foldlM rip g = .ok h ∧
        (∀ q, q ∈ h.states ↔ q = g.start ∨ q = g.accept) ∧
        h.start = g.start ∧ h.accept = g.accept ∧
        ∀ w, Regex.Matches g.alphabet (h.labels.label g.start g.accept) w ↔ g.HasPath w := by
  constructor
  · intro p interior
    have shrinks : (g.ripped p interior).Shrinks g [p] := .ripped interior
    refine ⟨g.ripped p interior, rip_ok interior, fun q => mem_states_ripped, shrinks.alphabet,
      shrinks.start, shrinks.accept, fun e listed null => ?_, fun w => shrinks.hasPath_iff⟩
    have stored := (g.ripped p interior).labels.no_null e listed
    rw [Regex.isNull_iff.mpr null] at stored
    cases stored
  · obtain ⟨r, built, _, language⟩ := toRegex_ok (g := g) (P := fun _ _ _ => True)
      ⟨fun _ _ => trivial, fun _ _ _ _ => trivial⟩ fun _ _ => trivial
    refine ⟨r, built, fun w => Set.ext_iff.mp language w, fun order permuted => ?_⟩
    obtain ⟨h, run, shrinks⟩ := foldlM_rip_ok (permuted.nodup_iff.mpr g.interior.nodup_toList)
      fun p member => permuted.mem_iff.mp member
    have all : ∀ p, p ∈ order ↔ p ∈ g.interior := fun p => permuted.mem_iff
    exact ⟨h, run, fun q => shrinks.mem_states_iff all, shrinks.start, shrinks.accept,
      fun w => shrinks.matches_iff all⟩

/-- Two states that lead into each other, the first one also into itself: the larger one can go
    first. -/
theorem rip_in_any_order_circle :
    let g : GNFA := {
      states := .ofList [⟨"p"⟩, ⟨"q"⟩, ⟨"r"⟩, ⟨"s"⟩]
      alphabet := ⟨.ofList ['a', 'b'], by decide, by decide⟩
      labels := .ofList (.ofList [⟨"p"⟩, ⟨"q"⟩, ⟨"r"⟩, ⟨"s"⟩]) [
        ((⟨"p"⟩, ⟨"q"⟩), .lit "a"), ((⟨"q"⟩, ⟨"q"⟩), .lit "b"), ((⟨"q"⟩, ⟨"r"⟩), .lit "a"),
        ((⟨"r"⟩, ⟨"q"⟩), .empty), ((⟨"r"⟩, ⟨"s"⟩), .lit "b"), ((⟨"p"⟩, ⟨"s"⟩), .empty)]
      start := ⟨"p"⟩
      accept := ⟨"s"⟩
      closed := ⟨by decide +kernel, by decide +kernel, by decide +kernel, by decide +kernel,
        by decide +kernel, by decide +kernel, by decide +kernel⟩ }
    ∃ r h, g.toRegex = .ok r ∧ [⟨"r"⟩, ⟨"q"⟩].foldlM rip g = .ok h ∧
      ∀ w, Regex.Matches g.alphabet (h.labels.label g.start g.accept) w ↔
        Regex.Matches g.alphabet r w := by
  intro g
  obtain ⟨_, r, built, matched, orders⟩ := g.rip_in_any_order
  obtain ⟨h, run, _, _, _, left⟩ := orders [⟨"r"⟩, ⟨"q"⟩] (by decide +kernel)
  exact ⟨r, h, built, run, fun w => (left w).trans (matched w).symm⟩

end Automata.GNFA
