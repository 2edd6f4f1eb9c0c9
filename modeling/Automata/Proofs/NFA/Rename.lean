import Automata.Proofs.NFA.Basic
import Automata.Proofs.Table
import Automata.StateDiagram.Isomorphism
import Mathlib.Data.List.Zip

/-! # Automata under other names

A clone is isomorphic to its original and consists of states that have been drawn for it. Names do
not matter to what is accepted.
-/

namespace Automata

/-- A list of results that all exist. -/
theorem mapM_ok {α β ε : Type} {f : α → Except ε β} {g : α → β} {l : List α}
    (h : ∀ a ∈ l, f a = .ok (g a)) : l.mapM f = .ok (l.map g) := by
  induction l with
  | nil => rfl
  | cons a l ih =>
      rw [List.mapM_cons, h a (by simp), ih fun b member => h b (List.mem_cons_of_mem a member)]
      rfl

namespace Renaming

/-- A renaming as a function on all states. -/
def rename (m : Renaming) (p : State) : State := (m.get? p).getD p

/-- A renaming gives each state of a set a name of its own. -/
structure Separates (m : Renaming) (S : SortedSet State) : Prop where
  defined : ∀ p ∈ S, m.apply p = .ok (m.rename p)
  injective : ∀ p ∈ S, ∀ q ∈ S, m.rename p = m.rename q → p = q
  values_eq : m.values = S.toList.map m.rename

theorem Separates.ofList_values {m : Renaming} {S : SortedSet State} (separates : m.Separates S) :
    SortedSet.ofList m.values = S.map m.rename := by
  rw [separates.values_eq, SortedSet.map]

/-- Different new names for all the states of a set separate them. -/
theorem separates_of_nodup {m : Renaming} {S : SortedSet State} (keys : m.keys = S.toList)
    (nodup : m.values.Nodup) : m.Separates S := by
  have found : ∀ p ∈ S, m.get? p = some (m.rename p) := by
    intro p member
    rw [← SortedSet.mem_toList, ← keys] at member
    obtain ⟨⟨q, r⟩, entry, here⟩ := List.mem_map.mp member
    obtain rfl : q = p := here
    rw [rename, Table.get?_eq_some_iff.mpr entry]
    rfl
  have entries : ∀ p ∈ S, (p, m.rename p) ∈ m.entries := fun p member =>
    Table.get?_eq_some_iff.mp (found p member)
  refine ⟨fun p member => ?_, fun p hp q hq same => ?_, ?_⟩
  · rw [apply, found p member]
  · exact congrArg Prod.fst (List.inj_on_of_nodup_map nodup (entries p hp) (entries q hq) same)
  · rw [Table.values, ← keys, Table.keys, List.map_map]
    refine List.map_congr_left fun e entry => ?_
    rw [Function.comp_apply, rename, Table.get?_eq_some_iff.mpr entry, Option.getD_some]

end Renaming

namespace NFA

open StateDiagram

variable {n k : NFA} {a : Allocator} {E : Error → Prop} {f : State → State}

/-- A diagram with its states renamed. -/
def renamedDiagram (d : StateDiagram) (f : State → State) : StateDiagram where
  states := d.states.map f
  alphabet := d.alphabet
  edges := d.edges.map (renamedEdge f)
  start := f d.start
  accepting := d.accepting.map f

theorem closed_renamedDiagram : (renamedDiagram n.toStateDiagram f).Closed where
  start_mem := SortedSet.mem_map.mpr ⟨n.start, n.start_mem, rfl⟩
  accepting_mem q final := by
    obtain ⟨p, old, rfl⟩ := SortedSet.mem_map.mp final
    exact SortedSet.mem_map.mpr ⟨p, accepting_subset old, rfl⟩
  source_mem e edge := by
    obtain ⟨d, old, rfl⟩ := SortedSet.mem_map.mp edge
    exact SortedSet.mem_map.mpr ⟨_, n.closed.source_mem d old, rfl⟩
  target_mem e edge := by
    obtain ⟨d, old, rfl⟩ := SortedSet.mem_map.mp edge
    exact SortedSet.mem_map.mpr ⟨_, n.closed.target_mem d old, rfl⟩

theorem wellLabelled_renamedDiagram : WellLabelled (renamedDiagram n.toStateDiagram f) := by
  intro e edge
  obtain ⟨d, old, rfl⟩ := SortedSet.mem_map.mp edge
  exact n.label_mem d old

/-- Isomorphic automata have the same language. -/
theorem language_of_isomorphism (iso : Isomorphism f n.toStateDiagram k.toStateDiagram) :
    k.language = n.language := by
  have edges : ∀ e, e ∈ k.edges ↔ ∃ d ∈ n.edges, renamedEdge f d = e := by
    intro e
    rw [← iso.edges_eq]
    exact SortedSet.mem_map
  have accepting : ∀ q, q ∈ k.accepting ↔ ∃ p ∈ n.accepting, f p = q := by
    intro q
    rw [← iso.accepting_eq]
    exact SortedSet.mem_map
  rw [language, language, ← iso.start_eq]
  apply le_antisymm
  · let F : State → Language Char := fun q => {w | ∃ p ∈ n.states, f p = q ∧ w ∈ n.wordsFrom p}
    have below : k.wordsFrom (f n.start) ≤ F (f n.start) := by
      refine wordsFrom_le (fun q final => ?_) (fun e edge w h => ?_) _
      · obtain ⟨p, old, rfl⟩ := (accepting q).mp final
        exact ⟨p, accepting_subset old, rfl, nil_mem_wordsFrom old⟩
      · obtain ⟨d, old, rfl⟩ := (edges e).mp edge
        obtain ⟨p, member, same, h⟩ := h
        obtain rfl := iso.injective p member d.target (n.closed.target_mem d old) same
        exact ⟨d.source, n.closed.source_mem d old, rfl, append_mem_wordsFrom old h⟩
    intro w h
    obtain ⟨p, member, same, h⟩ := below h
    exact iso.injective p member n.start n.start_mem same ▸ h
  · let F : State → Language Char := fun p => k.wordsFrom (f p)
    refine wordsFrom_le (F := F) (fun p final => ?_) (fun e edge w h => ?_) n.start
    · exact nil_mem_wordsFrom ((accepting _).mpr ⟨p, final, rfl⟩)
    · exact append_mem_wordsFrom ((edges _).mpr ⟨e, edge, rfl⟩) h

/-- Isomorphic automata accept the same words. -/
theorem accepts_of_isomorphism (iso : Isomorphism f n.toStateDiagram k.toStateDiagram)
    (word : String) : k.accepts word = n.accepts word :=
  accepts_congr iso.alphabet_eq.symm (language_of_isomorphism iso)

/-- A renaming that separates the states of an automaton can be carried out. -/
theorem isomorphism_renamedDiagram {m : Renaming} (separates : m.Separates n.states)
    (diagram : k.toStateDiagram = renamedDiagram n.toStateDiagram m.rename) :
    Isomorphism m.rename n.toStateDiagram k.toStateDiagram := by
  rw [diagram]
  exact ⟨rfl, separates.injective, rfl, rfl, rfl, rfl⟩

theorem relabel_ok {m : Renaming} (separates : m.Separates n.states) :
    n.edges.relabel m = .ok (n.edges.map (renamedEdge m.rename)) := by
  have each : ∀ e ∈ n.edges.toList, EdgeSet.relabelEdge m e = .ok (renamedEdge m.rename e) := by
    intro e edge
    rw [EdgeSet.relabelEdge, separates.defined _ (n.closed.source_mem e edge),
      separates.defined _ (n.closed.target_mem e edge)]
    rfl
  rw [EdgeSet.relabel, mapM_ok each]
  rfl

/-- Under a renaming that separates its states, an automaton is built from the renamed diagram. -/
theorem ofDiagram_renamed {m : Renaming} (separates : m.Separates n.states) :
    (do
      ofDiagram {
        states := .ofList m.values
        alphabet := n.alphabet
        edges := ← n.edges.relabel m
        start := ← m.apply n.start
        accepting := .ofList (← n.accepting.toList.mapM m.apply) }) =
      ofDiagram (renamedDiagram n.toStateDiagram m.rename) := by
  rw [relabel_ok separates, separates.defined n.start n.start_mem,
    mapM_ok fun p final => separates.defined p (accepting_subset final),
    separates.ofList_values]
  rfl

/-- Different names, one for each state of a set, make up a renaming that separates them. -/
theorem separates_of_names {S : SortedSet State} {names : List State}
    (length : names.length = S.size) (nodup : names.Nodup) :
    Renaming.Separates (.ofList (S.toList.zip names)) S ∧
      (Table.ofList (S.toList.zip names)).values = names := by
  have first : (S.toList.zip names).map Prod.fst = S.toList :=
    List.map_fst_zip (Nat.le_of_eq length.symm)
  have second : (S.toList.zip names).map Prod.snd = names :=
    List.map_snd_zip (Nat.le_of_eq length)
  have entries : (Table.ofList (S.toList.zip names)).entries = S.toList.zip names := by
    apply Table.entries_ofList
    rw [first]
    exact S.nodup_toList
  have keys : (Table.ofList (S.toList.zip names)).keys = S.toList := by
    rw [Table.keys, entries, first]
  have values : (Table.ofList (S.toList.zip names)).values = names := by
    rw [Table.values, entries, second]
  exact ⟨Renaming.separates_of_nodup keys (values.symm ▸ nodup), values⟩

theorem drawRenaming_ensures {S : SortedSet State} :
    (drawRenaming S).Ensures a
      (fun m c => Renaming.Separates m S ∧ ∀ p ∈ m.values, a.Drawn c p) E := by
  unfold drawRenaming
  refine .bind (.drawMany _) fun names c ac ⟨length, nodup, drawn⟩ => .pure ?_
  obtain ⟨separates, values⟩ := separates_of_names length nodup
  refine ⟨separates, fun p member => ?_⟩
  rw [values] at member
  exact (drawn p member).1

/-- A clone is isomorphic to its original, and its states have been drawn for it. -/
theorem clone_ensures : n.clone.Ensures a (fun k c =>
    (∃ f, Isomorphism f n.toStateDiagram k.toStateDiagram) ∧ ∀ q ∈ k.states, a.Drawn c q) E := by
  unfold clone
  refine .bind drawRenaming_ensures fun m c ac ⟨separates, drawn⟩ => ?_
  rw [ofDiagram_renamed separates]
  refine ofDiagram_ensures closed_renamedDiagram wellLabelled_renamedDiagram
    fun k diagram => ⟨?_, fun q member => ?_⟩
  · exact ⟨m.rename, isomorphism_renamedDiagram separates diagram⟩
  · rw [diagram] at member
    have member : q ∈ n.states.map m.rename := member
    rw [← separates.ofList_values, SortedSet.mem_ofList] at member
    exact drawn q member

end NFA

end Automata
