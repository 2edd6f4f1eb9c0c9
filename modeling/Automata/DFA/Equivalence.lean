import Automata.DFA.Basic

/-! # States that no word tells apart

Two states are equivalent when every word leads both of them to an accepting state or neither.
Equivalent states stay equivalent after reading a character.
-/

namespace Automata.DFA

/-- Every word over the alphabet leads both states to an accepting state or neither. -/
def Equivalent (d : DFA) (p q : State) : Prop :=
  ∀ w : List Char, (∀ c ∈ w, c ∈ d.alphabet) → d.recognizesFrom p w = d.recognizesFrom q w

namespace Equivalent

variable {d : DFA} {p q r p' q' : State}

theorem refl (d : DFA) (p : State) : d.Equivalent p p := fun _ _ => rfl

theorem symm (h : d.Equivalent p q) : d.Equivalent q p := fun w hw => (h w hw).symm

theorem trans (h : d.Equivalent p q) (k : d.Equivalent q r) : d.Equivalent p r :=
  fun w hw => (h w hw).trans (k w hw)

/-- Reading a character keeps states equivalent. -/
theorem next (h : d.Equivalent p q) {c : Char} (hc : c ∈ d.alphabet)
    (hp : d.next p c = some p') (hq : d.next q c = some q') : d.Equivalent p' q' := by
  intro w hw
  have hcw : ∀ a ∈ c :: w, a ∈ d.alphabet := fun a ha =>
    (List.mem_cons.1 ha).elim (fun e => e ▸ hc) (hw a)
  simpa [recognizesFrom, run, hp, hq] using h (c :: w) hcw

end Equivalent

end Automata.DFA
