import Automata.DFA.Product
import Automata.Proofs.DFA.Language
import Automata.Proofs.NFA.Combine

/-! # Products exist

A product has a move for every pair and every character, even if several pairs have one name: some
pair of that name wrote its moves last, and they lead to names of pairs.
-/

namespace Automata.DFA

variable {d e : DFA} {p q : State} {k : State × State} {accept : Bool → Bool → Bool}
  {move : (State × Symbol) × State}

theorem mem_statePairs : k ∈ statePairs d e ↔ k.1 ∈ d.states ∧ k.2 ∈ e.states := by
  obtain ⟨p, q⟩ := k
  simp [statePairs]

theorem mem_pairMoves : move ∈ pairMoves d e k ↔ ∃ c ∈ d.alphabet, ∃ p q,
    d.next k.1 c = some p ∧ e.next k.2 c = some q ∧
      move = ((pairName k.1 k.2, Symbol.ofChar c), pairName p q) := by
  simp only [pairMoves, List.mem_filterMap]
  refine exists_congr fun c => and_congr Iff.rfl ?_
  cases d.next k.1 c <;> cases e.next k.2 c <;> simp [eq_comm]

/-- The diagram of a product. -/
def productDiagram (accept : Bool → Bool → Bool) (d e : DFA) : MoveDiagram where
  states := .ofList ((statePairs d e).map fun k => pairName k.1 k.2)
  alphabet := d.alphabet
  moves := .ofList ((statePairs d e).flatMap (pairMoves d e))
  start := pairName d.start e.start
  accepting := .ofList (((statePairs d e).filter fun k =>
    accept (decide (k.1 ∈ d.accepting)) (decide (k.2 ∈ e.accepting))).map
      fun k => pairName k.1 k.2)

theorem mem_states_productDiagram : p ∈ (productDiagram accept d e).states ↔
    ∃ r ∈ d.states, ∃ s ∈ e.states, p = pairName r s := by
  simp only [productDiagram, SortedSet.mem_ofList, List.mem_map, mem_statePairs]
  constructor
  · rintro ⟨⟨r, s⟩, ⟨left, right⟩, rfl⟩
    exact ⟨r, left, s, right, rfl⟩
  · rintro ⟨r, left, s, right, rfl⟩
    exact ⟨(r, s), ⟨left, right⟩, rfl⟩

/-- Two automata over one alphabet have a product, whatever the names of their pairs. -/
theorem ofDiagram_productDiagram (alphabet : e.alphabet = d.alphabet) :
    ∃ m, ofDiagram (productDiagram accept d e) = .ok m ∧
      m.toMoveDiagram = productDiagram accept d e := by
  apply ofDiagram_ok
  · exact mem_states_productDiagram.mpr
      ⟨d.start, d.closed.start_mem, e.start, e.closed.start_mem, rfl⟩
  · intro p final
    obtain ⟨k, member, rfl⟩ := List.mem_map.mp (SortedSet.mem_ofList.mp final)
    exact SortedSet.mem_ofList.mpr (List.mem_map_of_mem (List.mem_filter.mp member).1)
  · intro p s q found
    obtain ⟨k, pair, written⟩ := List.mem_flatMap.mp (Table.mem_of_get?_ofList found)
    obtain ⟨left, right⟩ := mem_statePairs.mp pair
    obtain ⟨c, letter, p', q', first, second, same⟩ := mem_pairMoves.mp written
    cases same
    obtain ⟨_, target, next⟩ := next_ok left letter
    obtain ⟨_, target', next'⟩ := next_ok right (alphabet ▸ letter)
    cases first.symm.trans next
    cases second.symm.trans next'
    exact ⟨mem_states_productDiagram.mpr ⟨k.1, left, k.2, right, rfl⟩,
      Alphabet.ofChar_mem_symbols.mpr letter,
      mem_states_productDiagram.mpr ⟨p', target, q', target', rfl⟩⟩
  · intro p state c letter
    obtain ⟨r, left, s, right, rfl⟩ := mem_states_productDiagram.mp state
    have letter : c ∈ d.alphabet := letter
    obtain ⟨p', _, next⟩ := next_ok left letter
    obtain ⟨q', _, next'⟩ := next_ok right (alphabet ▸ letter)
    have written : ((pairName r s, Symbol.ofChar c), pairName p' q') ∈
        (statePairs d e).flatMap (pairMoves d e) :=
      List.mem_flatMap.mpr ⟨(r, s), mem_statePairs.mpr ⟨left, right⟩,
        mem_pairMoves.mpr ⟨c, letter, p', q', next, next', rfl⟩⟩
    exact Table.exists_get?_ofList (List.mem_map_of_mem (f := Prod.fst) written)

/-- Operands that pass the check have a product. -/
theorem product_ok (accept : Bool → Bool → Bool)
    (checked : StateDiagram.checkCompatible [d.diagram, e.diagram] = .ok ()) :
    ∃ m, product accept d e = .ok m ∧ m.toMoveDiagram = productDiagram accept d e := by
  have alphabet : e.alphabet = d.alphabet :=
    NFA.alphabets_of_check (NFA.parts_of_check checked).1 e.diagram (by simp)
  rw [product, checked]
  exact ofDiagram_productDiagram alphabet

end Automata.DFA
