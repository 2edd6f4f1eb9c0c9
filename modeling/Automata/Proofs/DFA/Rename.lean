import Automata.Proofs.Building
import Automata.Proofs.DFA.Language
import Automata.Proofs.NFA.StateCount

/-! # Deterministic automata under other names

Different names for different states keep the moves of an automaton apart. So a clone has a move for
every move of its original, and no others.
-/

namespace Automata.DFA

open Building StateDiagram

variable {d e : DFA} {p q p' q' : State} {s : Symbol} {f : State → State} {m : Renaming}
  {a : Allocator} {E : Error → Prop}

theorem ends_mem (move : d.moves.get? (p, s) = some q) : p ∈ d.states ∧ q ∈ d.states := by
  have edge := MoveTable.mem_edgeSet.mpr move
  exact ⟨d.closed.source_mem _ edge, d.closed.target_mem _ edge⟩

/-- The diagram of an automaton with its states renamed. -/
def renamedDiagram (d : DFA) (f : State → State) : MoveDiagram where
  states := d.states.map f
  alphabet := d.alphabet
  moves := .ofList (d.moves.entries.map fun e => ((f e.1.1, e.1.2), f e.2))
  start := f d.start
  accepting := d.accepting.map f

theorem get?_renamedDiagram (injective : ∀ p ∈ d.states, ∀ q ∈ d.states, f p = f q → p = q) :
    (d.renamedDiagram f).moves.get? (p', s) = some q' ↔
      ∃ p q, d.moves.get? (p, s) = some q ∧ f p = p' ∧ f q = q' := by
  have entries (q' : State) :
      ((p', s), q') ∈ d.moves.entries.map (fun e => ((f e.1.1, e.1.2), f e.2)) ↔
        ∃ p q, d.moves.get? (p, s) = some q ∧ f p = p' ∧ f q = q' := by
    simp [Table.get?_eq_some_iff]
  rw [← entries]
  apply Table.get?_ofList_of_functional
  intro u v first second
  obtain ⟨p₁, q₁, move₁, source₁, rfl⟩ := (entries u).mp first
  obtain ⟨p₂, q₂, move₂, source₂, rfl⟩ := (entries v).mp second
  obtain rfl := injective p₁ (ends_mem move₁).1 p₂ (ends_mem move₂).1 (source₁.trans source₂.symm)
  rw [move₁] at move₂
  rw [Option.some_inj.mp move₂]

theorem ofDiagram_renamedDiagram
    (injective : ∀ p ∈ d.states, ∀ q ∈ d.states, f p = f q → p = q) :
    ∃ e, ofDiagram (d.renamedDiagram f) = .ok e ∧ e.toMoveDiagram = d.renamedDiagram f := by
  apply ofDiagram_ok
  · exact SortedSet.mem_map.mpr ⟨d.start, d.closed.start_mem, rfl⟩
  · intro q final
    obtain ⟨p, old, rfl⟩ := SortedSet.mem_map.mp final
    exact SortedSet.mem_map.mpr ⟨p, d.closed.accepting_mem p old, rfl⟩
  · intro p' s q' move
    obtain ⟨p, q, old, rfl, rfl⟩ := (get?_renamedDiagram injective).mp move
    obtain ⟨source, target⟩ := ends_mem old
    refine ⟨SortedSet.mem_map.mpr ⟨p, source, rfl⟩, ?_, SortedSet.mem_map.mpr ⟨q, target, rfl⟩⟩
    exact d.label_mem s (MoveTable.mem_labels.mpr ⟨p, q, old⟩)
  · intro p' state c letter
    obtain ⟨p, old, rfl⟩ := SortedSet.mem_map.mp state
    obtain ⟨q, _, move⟩ := next_ok old letter
    exact ⟨f q, (get?_renamedDiagram injective).mpr ⟨p, q, move, rfl, rfl⟩⟩

theorem isomorphism_renamedDiagram
    (injective : ∀ p ∈ d.states, ∀ q ∈ d.states, f p = f q → p = q)
    (diagram : e.toMoveDiagram = d.renamedDiagram f) : Isomorphism f d.diagram e.diagram := by
  rw [diagram]
  refine ⟨rfl, injective, rfl, rfl, rfl, ?_⟩
  ext ⟨p', s, q'⟩
  have moves : ⟨p', s, q'⟩ ∈ (d.renamedDiagram f).diagram.edges ↔
      ∃ p q, d.moves.get? (p, s) = some q ∧ f p = p' ∧ f q = q' :=
    MoveTable.mem_edgeSet.trans (get?_renamedDiagram injective)
  rw [SortedSet.mem_map, moves]
  constructor
  · rintro ⟨⟨p, s', q⟩, edge, same⟩
    cases same
    exact ⟨p, q, MoveTable.mem_edgeSet.mp edge, rfl, rfl⟩
  · rintro ⟨p, q, move, rfl, rfl⟩
    exact ⟨⟨p, s, q⟩, MoveTable.mem_edgeSet.mpr move, rfl⟩

theorem relabel_ok (separates : m.Separates d.states) :
    d.moves.relabel m = .ok (d.renamedDiagram m.rename).moves := by
  have each : ∀ e ∈ d.moves.entries, MoveTable.relabelEntry m e =
      .ok ((m.rename e.1.1, e.1.2), m.rename e.2) := by
    intro e entry
    obtain ⟨source, target⟩ := ends_mem (Table.get?_eq_some_iff.mpr entry)
    rw [MoveTable.relabelEntry, separates.defined _ source, separates.defined _ target]
    rfl
  rw [MoveTable.relabel, mapM_ok each]
  rfl

/-- Under a renaming that separates its states, an automaton is built from the renamed diagram. -/
theorem ofDiagram_renamed (separates : m.Separates d.states) :
    (do
      ofDiagram {
        states := .ofList m.values
        alphabet := d.alphabet
        moves := ← d.moves.relabel m
        start := ← m.apply d.start
        accepting := .ofList (← d.accepting.toList.mapM m.apply) }) =
      ofDiagram (d.renamedDiagram m.rename) := by
  have finals : d.accepting.toList.mapM m.apply = .ok (d.accepting.toList.map m.rename) :=
    mapM_ok fun p final => separates.defined p (d.closed.accepting_mem p final)
  rw [relabel_ok separates, separates.defined d.start d.closed.start_mem, finals,
    separates.ofList_values]
  rfl

/-- A clone is isomorphic to its original, and its states have been drawn for it. -/
theorem clone_ensures : d.clone.Ensures a (fun e c =>
    (∃ f, Isomorphism f d.diagram e.diagram) ∧ ∀ q ∈ e.states, a.Drawn c q) E := by
  unfold clone
  refine .bind NFA.drawRenaming_ensures fun m c ac ⟨separates, drawn⟩ => ?_
  obtain ⟨e, built, diagram⟩ := ofDiagram_renamedDiagram separates.injective
  rw [ofDiagram_renamed separates, built]
  refine .check_ok ⟨⟨m.rename, isomorphism_renamedDiagram separates.injective diagram⟩, ?_⟩
  intro q member
  rw [diagram] at member
  have member : q ∈ d.states.map m.rename := member
  rw [← separates.ofList_values, SortedSet.mem_ofList] at member
  exact drawn q member

/-- A clone is named after the states that are drawn for it, in their order. -/
theorem clone_copies :
    d.clone.Takes a d.states.size fun e ps => d.diagram.CopiedAs e.diagram ps := by
  unfold clone
  refine NFA.drawRenaming_takes.bind (k := 0) fun m c ps _ ⟨separates, values⟩ => ?_
  obtain ⟨e, built, diagram⟩ := ofDiagram_renamedDiagram separates.injective
  rw [ofDiagram_renamed separates, built]
  refine .check (fun e' same => ?_) (by simp)
  cases same
  rw [List.append_nil, ← values, separates.values_eq]
  exact ⟨m.rename, rfl, isomorphism_renamedDiagram separates.injective diagram⟩

theorem clone_draws (d : DFA) (a : Allocator) : d.clone.Draws a d.states.size fun _ => False :=
  .of_ensures clone_ensures clone_copies

end Automata.DFA
