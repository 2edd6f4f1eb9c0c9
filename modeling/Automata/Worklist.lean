/-! # Breadth-first discovery

`discover next bound roots` lists what can be reached from the roots, each element once, in the
order in which a breadth-first search meets it. The bound is the number of elements that the
search may take from its queue; it is large enough when it is at least the number of elements
that can be reached.
-/

namespace Automata

namespace Worklist

universe u

variable {α : Type u} [DecidableEq α]

/-- The elements of a list that are not known yet, each once, in order. -/
def unknown (known : List α) : List α → List α
  | [] => []
  | a :: l => if a ∈ known then unknown known l else a :: unknown (a :: known) l

/-- Takes elements from the queue and adds what they lead to, at most `bound` times. -/
def expand (next : α → List α) : Nat → List α → List α → List α
  | 0, _, known => known
  | _ + 1, [], known => known
  | bound + 1, a :: queue, known =>
    let found := unknown known (next a)
    expand next bound (queue ++ found) (known ++ found)

/-- What a breadth-first search from the roots meets, in the order of discovery. -/
def discover (next : α → List α) (bound : Nat) (roots : List α) : List α :=
  let start := unknown [] roots
  expand next bound start start

theorem mem_unknown {known l : List α} {a : α} : a ∈ unknown known l ↔ a ∈ l ∧ a ∉ known := by
  induction l generalizing known with
  | nil => simp [unknown]
  | cons b l ih =>
    unfold unknown
    split
    · rename_i h
      rw [ih, List.mem_cons]
      exact ⟨fun ⟨h₁, h₂⟩ => ⟨.inr h₁, h₂⟩, fun ⟨h₁, h₂⟩ =>
        ⟨h₁.resolve_left fun e => h₂ (e ▸ h), h₂⟩⟩
    · rename_i h
      rw [List.mem_cons, ih, List.mem_cons, List.mem_cons]
      constructor
      · rintro (rfl | ⟨h₁, h₂⟩)
        · exact ⟨.inl rfl, h⟩
        · exact ⟨.inr h₁, fun hk => h₂ (.inr hk)⟩
      · rintro ⟨h₁, h₂⟩
        by_cases e : a = b
        · exact .inl e
        · exact .inr ⟨h₁.resolve_left e, fun hk => hk.elim e h₂⟩

end Worklist

end Automata
