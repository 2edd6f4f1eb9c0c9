import Automata.Proofs.DFA.Language

/-! # Automata on named elements

The subset construction and the quotient list elements of some kind, give each a name, and move from
name to name as the elements do. If elements of one name agree, this is an automaton that recognizes
what the elements do.
-/

namespace Automata

universe u

/-- Named elements with a step for every character, and one of them to start from. -/
structure Naming (α : Type u) where
  elements : List α
  name : α → State
  alphabet : Alphabet
  step : α → Char → α
  start : α
  final : α → Bool

namespace Naming

variable {α : Type u} {N : Naming α} {D : MoveDiagram} {d : DFA} {x : α} {c : Char} {w : List Char}

/-- Steps do not lead outside, and elements of one name agree. -/
structure Sound (N : Naming α) : Prop where
  start_mem : N.start ∈ N.elements
  step_mem : ∀ x ∈ N.elements, ∀ c ∈ N.alphabet, N.step x c ∈ N.elements
  step_eq : ∀ x ∈ N.elements, ∀ y ∈ N.elements, N.name x = N.name y →
    ∀ c ∈ N.alphabet, N.name (N.step x c) = N.name (N.step y c)
  final_eq : ∀ x ∈ N.elements, ∀ y ∈ N.elements, N.name x = N.name y → N.final x = N.final y

/-- A diagram consists of the names of elements, with a move for every step. -/
structure Describes (N : Naming α) (D : MoveDiagram) : Prop where
  states : ∀ p, p ∈ D.states ↔ ∃ x ∈ N.elements, p = N.name x
  alphabet : D.alphabet = N.alphabet
  moves : ∃ l, D.moves = .ofList l ∧ ∀ p a q, ((p, a), q) ∈ l ↔ ∃ x ∈ N.elements,
    ∃ c ∈ N.alphabet, p = N.name x ∧ a = Symbol.ofChar c ∧ q = N.name (N.step x c)
  start : D.start = N.name N.start
  accepting : ∀ p, p ∈ D.accepting ↔ ∃ x ∈ N.elements, N.final x = true ∧ p = N.name x

namespace Describes

variable (describes : N.Describes D) (sound : N.Sound)

include describes sound

theorem get?_moves (p : State) (a : Symbol) (q : State) : D.moves.get? (p, a) = some q ↔
    ∃ x ∈ N.elements, ∃ c ∈ N.alphabet,
      p = N.name x ∧ a = Symbol.ofChar c ∧ q = N.name (N.step x c) := by
  obtain ⟨l, moves, entries⟩ := describes.moves
  rw [← entries, moves]
  apply Table.get?_ofList_of_functional
  intro u v first second
  obtain ⟨x, hx, c, letter, source, rfl, rfl⟩ := (entries _ _ _).mp first
  obtain ⟨y, hy, b, _, source', label, rfl⟩ := (entries _ _ _).mp second
  obtain rfl := Symbol.ofChar_injective label
  exact sound.step_eq x hx y hy (source.symm.trans source') c letter

theorem ofDiagram_ok : ∃ d, DFA.ofDiagram D = .ok d ∧ d.toMoveDiagram = D := by
  have moves := describes.get?_moves sound
  apply DFA.ofDiagram_ok
  · exact (describes.states _).mpr ⟨_, sound.start_mem, describes.start⟩
  · intro p final
    obtain ⟨x, listed, _, same⟩ := (describes.accepting p).mp final
    exact (describes.states p).mpr ⟨x, listed, same⟩
  · intro p a q move
    obtain ⟨x, listed, c, letter, rfl, rfl, rfl⟩ := (moves p a q).mp move
    refine ⟨(describes.states _).mpr ⟨x, listed, rfl⟩, ?_,
      (describes.states _).mpr ⟨_, sound.step_mem x listed c letter, rfl⟩⟩
    rw [describes.alphabet]
    exact Alphabet.ofChar_mem_symbols.mpr letter
  · intro p state c letter
    rw [describes.alphabet] at letter
    obtain ⟨x, listed, rfl⟩ := (describes.states p).mp state
    exact ⟨_, (moves _ _ _).mpr ⟨x, listed, c, letter, rfl, rfl, rfl⟩⟩

/-- Names matter for the elements only. -/
theorem congr {f : α → State} (same : ∀ x ∈ N.elements, f x = N.name x) :
    ({ N with name := f } : Naming α).Describes D where
  states p := (describes.states p).trans
    (exists_congr fun x => and_congr_right fun listed => by simp only [same x listed])
  alphabet := describes.alphabet
  moves := by
    obtain ⟨l, moves, entries⟩ := describes.moves
    refine ⟨l, moves, fun p a q => (entries p a q).trans ?_⟩
    refine exists_congr fun x => and_congr_right fun listed =>
      exists_congr fun c => and_congr_right fun letter => ?_
    simp only [same x listed, same _ (sound.step_mem x listed c letter)]
  start := describes.start.trans (same _ sound.start_mem).symm
  accepting p := (describes.accepting p).trans
    (exists_congr fun x => and_congr_right fun listed => by simp only [same x listed])

/-- Diagrams of the same names differ at most in the order in which they keep their moves. -/
theorem diagram_eq {E : MoveDiagram} (describes' : N.Describes E) : D.diagram = E.diagram := by
  simp only [MoveDiagram.diagram, StateDiagram.mk.injEq]
  refine ⟨?_, describes.alphabet.trans describes'.alphabet.symm, ?_,
    describes.start.trans describes'.start.symm, ?_⟩
  · ext p
    rw [describes.states, describes'.states]
  · ext ⟨p, a, q⟩
    rw [MoveTable.mem_edgeSet, MoveTable.mem_edgeSet, describes.get?_moves sound,
      describes'.get?_moves sound]
  · ext p
    rw [describes.accepting, describes'.accepting]

variable (diagram : d.toMoveDiagram = D)

include diagram

theorem next_name (listed : x ∈ N.elements) (letter : c ∈ N.alphabet) :
    d.next (N.name x) c = some (N.name (N.step x c)) := by
  rw [DFA.next, diagram]
  exact (describes.get?_moves sound _ _ _).mpr ⟨x, listed, c, letter, rfl, rfl, rfl⟩

theorem name_mem_accepting (listed : x ∈ N.elements) :
    N.name x ∈ d.accepting ↔ N.final x = true := by
  rw [diagram, describes.accepting]
  constructor
  · intro ⟨y, listed', final, same⟩
    rwa [sound.final_eq x listed y listed' same]
  · intro final
    exact ⟨x, listed, final, rfl⟩

/-- What is recognized from a name is decided by the steps of its element. -/
theorem recognizesFrom_name (covered : ∀ c ∈ w, c ∈ N.alphabet) (listed : x ∈ N.elements) :
    d.recognizesFrom (N.name x) w = N.final (w.foldl N.step x) := by
  induction w generalizing x with
  | nil =>
      rw [Bool.eq_iff_iff, DFA.recognizesFrom_nil, decide_eq_true_iff]
      exact describes.name_mem_accepting sound diagram listed
  | cons c w ih =>
      have letter := covered c List.mem_cons_self
      rw [DFA.recognizesFrom_cons (describes.next_name sound diagram listed letter)]
      exact ih (fun b later => covered b (List.mem_cons_of_mem c later))
        (sound.step_mem x listed c letter)

end Describes

end Naming

end Automata
