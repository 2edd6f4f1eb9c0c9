import Automata.Proofs.NFA.OfRegex

/-! # How many states an expression takes

The automaton of an expression consists of the states that its construction takes from the
allocator, and how many these are depends on the expression only. No check on the parts takes any,
so numbers run out only where the allocator has fewer states left.
-/

namespace Automata

open Building

/-! ### Checks that need no states -/

theorem bind_ne_error {α β : Type} {r : Except Error α} {f : α → Except Error β} {e : Error}
    (first : r ≠ .error e) (next : ∀ x, f x ≠ .error e) : r >>= f ≠ .error e := by
  cases r with
  | error e' => exact fun same => first (congrArg Except.error (Except.error.inj same))
  | ok x => exact next x

theorem Alphabet.check_ne_exhausted {A : Alphabet} {word : String} :
    A.check word ≠ .error .numbersExhausted := by
  unfold check
  split <;> simp

theorem StateDiagram.checkClosed_ne_exhausted {d : StateDiagram} :
    d.checkClosed ≠ .error .numbersExhausted := by
  unfold checkClosed
  repeat' split
  all_goals simp

theorem StateDiagram.checkAlphabets_ne_exhausted {l : List StateDiagram} :
    checkAlphabets l ≠ .error .numbersExhausted := by
  induction l using checkAlphabets.induct with
  | case1 d e l same ih => simpa [checkAlphabets, same] using ih
  | case2 d e l differ => simp [checkAlphabets, differ]
  | case3 l short => simp [checkAlphabets]

theorem StateDiagram.checkDisjoint_ne_exhausted {seen : SortedSet State} {l : List StateDiagram} :
    checkDisjoint seen l ≠ .error .numbersExhausted := by
  induction l generalizing seen with
  | nil => simp [checkDisjoint]
  | cons d l ih =>
      rw [checkDisjoint]
      split
      · simp
      · exact ih

namespace NFA

variable {A : Alphabet} {a c : Allocator} {d : StateDiagram} {l : List NFA} {n front : NFA}
  {P : NFA → List State → Prop} {ps : List State} {k : Nat} {r : Regex} {parts : List Regex}

theorem checkCompatible_ne_exhausted : checkCompatible l ≠ .error .numbersExhausted :=
  bind_ne_error StateDiagram.checkAlphabets_ne_exhausted
    fun _ => StateDiagram.checkDisjoint_ne_exhausted

theorem ofDiagram_ne_exhausted : ofDiagram d ≠ .error .numbersExhausted := by
  refine bind_ne_error StateDiagram.checkClosed_ne_exhausted fun _ => ?_
  dsimp only
  split <;> simp [pure, Except.pure, throw, throwThe, MonadExceptOf.throw]

theorem toStateDiagram_of_ofDiagram (built : ofDiagram d = .ok n) : n.toStateDiagram = d := by
  unfold ofDiagram at built
  cases checked : d.checkClosed with
  | error e =>
      rw [checked] at built
      cases built
  | ok closed =>
      rw [checked] at built
      simp only [bind, Except.bind] at built
      split at built
      · cases built
        rfl
      · cases built

theorem concatenate_ne_exhausted : concatenate l ≠ .error .numbersExhausted := by
  cases l with
  | nil => simp [concatenate]
  | cons first others =>
      exact bind_ne_error checkCompatible_ne_exhausted fun _ => ofDiagram_ne_exhausted

theorem states_of_concatenate (built : concatenate l = .ok n) : n.states = allStates l := by
  cases l with
  | nil => cases built
  | cons first others =>
      rw [concatenate] at built
      cases checked : checkCompatible (first :: others) with
      | error e =>
          rw [checked] at built
          cases built
      | ok _ =>
          rw [checked] at built
          rw [toStateDiagram_of_ofDiagram built]

theorem simplify_ne_exhausted : n.simplify ≠ .error .numbersExhausted := by
  rw [simplify]
  split
  · simp
  · exact ofDiagram_ne_exhausted

/-! ### Constructions and the states that they take -/

/-- An automaton has exactly the given states. -/
def Consists (n : NFA) (ps : List State) : Prop := ∀ p, p ∈ n.states ↔ p ∈ ps

theorem Consists.size_eq (consists : n.Consists ps) (nodup : ps.Nodup) :
    n.states.size = ps.length :=
  SortedSet.size_eq_length nodup consists

theorem ofDiagram_takes (h : ∀ n, n.toStateDiagram = d → P n []) :
    (check (ofDiagram d)).Takes a 0 P :=
  .check (fun n built => h n (toStateDiagram_of_ofDiagram built)) ofDiagram_ne_exhausted

theorem single_takes {accepts : Bool} : (single (.ok A) accepts).Takes a 1 Consists := by
  unfold single
  refine .draw_bind fun p c => .check_bind (by simp) fun B _ => ?_
  exact ofDiagram_takes fun n diagram q => by simp [diagram]

theorem forAnyOf_takes {symbols : List Symbol} : (forAnyOf A symbols).Takes a 2 Consists := by
  unfold forAnyOf
  refine .check_bind Alphabet.check_ne_exhausted fun _ _ => .drawPair_bind fun p q c => ?_
  exact ofDiagram_takes fun n diagram r => by simp [diagram]

theorem union_takes : (union l).Takes a 1 fun n ps =>
    ∃ p, ps = [p] ∧ ∀ q, q ∈ n.states ↔ q = p ∨ q ∈ allStates l := by
  cases l with
  | nil => exact .check_error (by simp)
  | cons first others =>
      refine .check_bind checkCompatible_ne_exhausted fun _ _ => .draw_bind fun p c => ?_
      split
      · exact .throw_bind (by simp)
      · exact ofDiagram_takes fun n diagram => ⟨p, rfl, fun q => by simp [diagram]⟩

theorem star_takes : n.star.Takes a 1 fun m ps =>
    ∃ p, ps = [p] ∧ ∀ q, q ∈ m.states ↔ q = p ∨ q ∈ n.states := by
  unfold star
  refine .draw_bind fun p c => ?_
  split
  · exact .throw_bind (by simp)
  · exact ofDiagram_takes fun m diagram => ⟨p, rfl, fun q => by simp [diagram]⟩

theorem drawRenaming_takes {S : SortedSet State} :
    (drawRenaming S).Takes a S.size fun m ps => m.Separates S ∧ m.values = ps := by
  unfold drawRenaming
  have drawn : (drawMany S.size).Takes a S.size fun names ps =>
      names = ps ∧ names.length = S.size ∧ names.Nodup :=
    (Takes.drawMany S.size).weaken fun _ _ _ handed length same =>
      ⟨same, same ▸ length, same ▸ nodup_of_handsOut handed⟩
  refine drawn.bind fun names c ps _ ⟨same, length, nodup⟩ => .pure ?_
  rw [List.append_nil, ← same]
  exact separates_of_names length nodup

/-- A clone is named after the states that are drawn for it, in their order. -/
theorem clone_copies :
    n.clone.Takes a n.states.size fun m ps => n.toStateDiagram.CopiedAs m.toStateDiagram ps := by
  unfold clone
  refine drawRenaming_takes.bind (k := 0) fun m c ps _ ⟨separates, values⟩ => ?_
  rw [ofDiagram_renamed separates]
  refine ofDiagram_takes fun k diagram => ?_
  rw [List.append_nil, ← values, separates.values_eq]
  exact ⟨m.rename, rfl, isomorphism_renamedDiagram separates diagram⟩

theorem clone_takes : n.clone.Takes a n.states.size Consists :=
  clone_copies.weaken fun m ps c _ _ copied p => by rw [copied.states_eq, SortedSet.mem_ofList]

/-! ### Expressions -/

end NFA

namespace Regex

mutual

/-- How many states the automaton of an expression takes. -/
def stateCount : Regex → Nat
  | .empty | .null | .concat [] | .union [] => 1
  | .any | .lit _ | .choice _ => 2
  | .concat (r :: parts) => stateCount r + stateCounts parts
  | .union (r :: parts) => stateCount r + stateCounts parts + 1
  | .star r => stateCount r + 1
  | .plus r => stateCount r + (stateCount r + 1)
  | .opt r => 1 + stateCount r + 1

def stateCounts : List Regex → Nat
  | [] => 0
  | r :: parts => stateCount r + stateCounts parts

end

end Regex

namespace NFA

/-- The states of several automata are exactly the given ones. -/
def ConsistJointly (l : List NFA) (ps : List State) : Prop := ∀ p, p ∈ allStates l ↔ p ∈ ps

theorem ofAlternatives_nil_takes :
    (ofAlternatives A []).Takes a (Regex.stateCounts []) ConsistJointly :=
  .pure (by simp [ConsistJointly, allStates])

theorem ofAlternatives_cons_takes (first : (ofRegex A r).Takes a r.stateCount Consists)
    (others : ∀ c, (ofAlternatives A parts).Takes c (Regex.stateCounts parts) ConsistJointly) :
    (ofAlternatives A (r :: parts)).Takes a (Regex.stateCounts (r :: parts)) ConsistJointly := by
  rw [ofAlternatives, Regex.stateCounts]
  refine first.bind fun n c ps _ first => ?_
  refine (others c).bind (k := 0) fun l d qs _ others => .pure fun p => ?_
  have others := others p
  rw [mem_allStates] at others ⊢
  simp [first p, others]

/-- What is united, and a state more. -/
theorem union_of_takes (all : (ofAlternatives A parts).Takes a k ConsistJointly) :
    (ofAlternatives A parts >>= union).Takes a (k + 1) Consists := by
  refine all.bind fun l c ps _ all => union_takes.weaken fun n qs d _ _ union q => ?_
  obtain ⟨p, same, states⟩ := union
  simp [same, states q, all q, or_comm]

theorem star_of_takes (body : (ofRegex A r).Takes a r.stateCount Consists) :
    (ofRegex A (.star r)).Takes a (Regex.star r).stateCount Consists := by
  rw [ofRegex, Regex.stateCount]
  refine body.bind fun n c ps _ body => star_takes.weaken fun m qs d _ _ star q => ?_
  obtain ⟨p, same, states⟩ := star
  simp [same, states q, body q, or_comm]

/-- The copy takes as many states as the automaton has that is repeated. -/
theorem plus_of_takes (body : (ofRegex A r).Takes a r.stateCount Consists) :
    (ofRegex A (.plus r)).Takes a (Regex.plus r).stateCount Consists := by
  rw [ofRegex, Regex.stateCount]
  have counted : (ofRegex A r).Takes a r.stateCount fun n ps =>
      n.Consists ps ∧ n.states.size = r.stateCount :=
    body.weaken fun n ps c handed length consists =>
      ⟨consists, (consists.size_eq (nodup_of_handsOut handed)).trans length⟩
  refine counted.bind fun once c ps _ counted => ?_
  obtain ⟨once', size⟩ := counted
  rw [← size]
  refine clone_takes.bind fun first d qs _ copy => ?_
  refine star_takes.bind (k := 0) fun rest e rs _ star => ?_
  obtain ⟨p, same, states⟩ := star
  refine .check (fun n built q => ?_) concatenate_ne_exhausted
  rw [states_of_concatenate built, mem_allStates]
  simp [same, states q, copy q, once' q, or_comm, or_left_comm, or_assoc]

mutual

/-- The automaton of an expression consists of the states that its construction takes. -/
theorem ofRegex_takes : ∀ (r : Regex) (a : Allocator), (ofRegex A r).Takes a r.stateCount Consists
  | .empty, _ | .null, _ | .concat [], _ | .union [], _ => single_takes
  | .any, _ | .lit _, _ | .choice _, _ => forAnyOf_takes
  | .concat (r :: parts), a => by
      rw [ofRegex, Regex.stateCount]
      refine (ofRegex_takes r a).bind fun front c ps _ first => ?_
      refine (ofFactors_takes parts c front).weaken fun n qs d _ _ others p => ?_
      rw [others, first, List.mem_append]
  | .union (r :: parts), a => by
      have run : ofRegex A (.union (r :: parts)) = ofAlternatives A (r :: parts) >>= union := by
        simp [ofRegex, ofAlternatives]
      rw [run]
      exact union_of_takes
        (ofAlternatives_cons_takes (ofRegex_takes r a) (ofAlternatives_takes parts))
  | .star r, a => star_of_takes (ofRegex_takes r a)
  | .plus r, a => plus_of_takes (ofRegex_takes r a)
  | .opt r, a => by
      have run : ofRegex A (.opt r) = ofAlternatives A [.empty, r] >>= union := by
        simp [ofRegex, ofAlternatives]
      rw [run]
      refine union_of_takes (ofAlternatives_cons_takes single_takes fun c => ?_)
      exact ofAlternatives_cons_takes (ofRegex_takes r c) fun _ => ofAlternatives_nil_takes

theorem ofFactors_takes : ∀ (parts : List Regex) (a : Allocator) (front : NFA),
    (ofFactors A front parts).Takes a (Regex.stateCounts parts)
      fun n ps => ∀ p, p ∈ n.states ↔ p ∈ front.states ∨ p ∈ ps
  | [], _, front => .pure (by simp)
  | r :: parts, a, front => by
      rw [ofFactors, Regex.stateCounts]
      refine (ofRegex_takes r a).bind fun next c ps _ first => ?_
      refine .check_bind concatenate_ne_exhausted fun joined built => ?_
      refine (ofFactors_takes parts c joined).weaken fun n qs d _ _ others p => ?_
      rw [others, states_of_concatenate built, mem_allStates]
      simp [first p, or_assoc]

theorem ofAlternatives_takes : ∀ (parts : List Regex) (a : Allocator),
    (ofAlternatives A parts).Takes a (Regex.stateCounts parts) ConsistJointly
  | [], _ => ofAlternatives_nil_takes
  | r :: parts, a =>
      ofAlternatives_cons_takes (ofRegex_takes r a) (ofAlternatives_takes parts)

end

end NFA

end Automata
