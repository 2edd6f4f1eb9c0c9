import Automata.CFG.ToPDA
import Automata.Proofs.Building

/-! # How outputs are pushed

Between two pushes a state owes the elements that are still to come. A plan lists these states with
what they owe; the rules that are built are exactly the next pushes of the states in the plan and
the first pushes of the productions.
-/

namespace Automata.CFG

/-- A state that pops a symbol and then pushes elements, first to last. -/
structure Task where
  state : State
  popped : Symbol
  todo : List Element

/-- States in between, with the elements that they owe. -/
abbrev Plan := List (State × List Element)

namespace Plan

def tasks (plan : Plan) : List Task := plan.map fun x => ⟨x.1, Symbol.epsilon, x.2⟩

/-- A rule takes the first step of a task. -/
inductive Begins (plan : Plan) : Task → StackRule → Prop where
  | nothing {p : State} {popped : Symbol} :
      Begins plan ⟨p, popped, []⟩ ⟨p, popped, Symbol.epsilon, loopState, Symbol.epsilon⟩
  | element {p q : State} {popped : Symbol} {e : Element} {es : List Element} :
      (q, es) ∈ (loopState, []) :: plan →
        Begins plan ⟨p, popped, e :: es⟩ ⟨p, popped, Symbol.epsilon, q, e.text⟩

/-- Rules and states that are built between two allocators begin the given tasks and carry out the
    plan. -/
structure Serves (plan : Plan) (tasks : List Task) (a b : Allocator)
    (built : List StackRule × List State) : Prop where
  states : built.2 = plan.map Prod.fst
  nodup : (plan.map Prod.fst).Nodup
  drawn : ∀ x ∈ plan, a.Drawn b x.1
  complete : ∀ t ∈ tasks ++ plan.tasks, ∃ r ∈ built.1, Begins plan t r
  sound : ∀ r ∈ built.1, ∃ t ∈ tasks ++ plan.tasks, Begins plan t r
  owed : ∀ x ∈ plan, x.2 ≠ [] ∧ ∃ t ∈ tasks, ∀ e ∈ x.2, e ∈ t.todo

variable {plan plan' : Plan} {t : Task} {ts ts' : List Task} {r : StackRule} {a b c : Allocator}
  {built built' : List StackRule × List State} {p q : State} {popped : Symbol} {e : Element}
  {es : List Element}

theorem Begins.mono (begins : Begins plan t r) (within : plan ⊆ plan') : Begins plan' t r := by
  cases begins with
  | nothing => exact .nothing
  | element next => exact .element (List.cons_subset_cons _ within next)

namespace Serves

theorem nil : Serves [] [] a a ([], []) where
  states := rfl
  nodup := .nil
  drawn _ member := absurd member List.not_mem_nil
  complete _ member := absurd member List.not_mem_nil
  sound _ member := absurd member List.not_mem_nil
  owed _ member := absurd member List.not_mem_nil

theorem one (begins : Begins [] t r) : Serves [] [t] a a ([r], []) where
  states := rfl
  nodup := .nil
  drawn _ member := absurd member List.not_mem_nil
  complete t' member := by
    obtain rfl := List.mem_singleton.mp member
    exact ⟨r, by simp, begins⟩
  sound r' member := by
    obtain rfl := List.mem_singleton.mp member
    exact ⟨t, by simp [tasks], begins⟩
  owed _ member := absurd member List.not_mem_nil

/-- A push in front leads to a new state, which owes the rest. -/
theorem cons (ab : a.Before b) (bc : b.Before c) (new : a.Drawn b q) (more : es ≠ [])
    (serves : Serves plan [⟨q, Symbol.epsilon, es⟩] b c built) :
    Serves ((q, es) :: plan) [⟨p, popped, e :: es⟩] a c
      (⟨p, popped, Symbol.epsilon, q, e.text⟩ :: built.1, q :: built.2) where
  states := by rw [serves.states, List.map_cons]
  nodup := by
    refine List.nodup_cons.mpr ⟨fun member => ?_, serves.nodup⟩
    obtain ⟨x, listed, same⟩ := List.mem_map.mp member
    exact (new.past ab).not_drawn (same ▸ serves.drawn x listed)
  drawn x member := by
    rcases List.mem_cons.mp member with rfl | later
    · exact new.right bc
    · exact .left ab (serves.drawn x later)
  complete t member := by
    rcases List.mem_cons.mp member with rfl | rest
    · exact ⟨_, List.mem_cons_self, .element (by simp)⟩
    · obtain ⟨r, rule, begins⟩ := serves.complete t rest
      exact ⟨r, List.mem_cons_of_mem _ rule, begins.mono (List.subset_cons_self _ _)⟩
  sound r member := by
    rcases List.mem_cons.mp member with rfl | later
    · exact ⟨_, List.mem_cons_self, .element (by simp)⟩
    · obtain ⟨t, task, begins⟩ := serves.sound r later
      exact ⟨t, List.mem_cons_of_mem _ task, begins.mono (List.subset_cons_self _ _)⟩
  owed x member := by
    rcases List.mem_cons.mp member with rfl | later
    · exact ⟨more, _, List.mem_cons_self, fun e' inside => List.mem_cons_of_mem e inside⟩
    · obtain ⟨some, t, task, inside⟩ := serves.owed x later
      obtain rfl := List.mem_singleton.mp task
      exact ⟨some, _, List.mem_cons_self, fun e' owed => List.mem_cons_of_mem e (inside e' owed)⟩

theorem append (ab : a.Before b) (bc : b.Before c) (first : Serves plan ts a b built)
    (second : Serves plan' ts' b c built') :
    Serves (plan ++ plan') (ts ++ ts') a c (built.1 ++ built'.1, built.2 ++ built'.2) where
  states := by rw [first.states, second.states, List.map_append]
  nodup := by
    rw [List.map_append]
    refine first.nodup.append second.nodup fun q early late => ?_
    obtain ⟨x, listed, rfl⟩ := List.mem_map.mp early
    obtain ⟨y, listed', same⟩ := List.mem_map.mp late
    exact ((first.drawn x listed).past ab).not_drawn (same ▸ second.drawn y listed')
  drawn x member := by
    rcases List.mem_append.mp member with early | late
    · exact (first.drawn x early).right bc
    · exact .left ab (second.drawn x late)
  complete t member := by
    have either : t ∈ ts ++ tasks plan ∨ t ∈ ts' ++ tasks plan' := by
      simp only [tasks, List.map_append, List.mem_append] at member ⊢
      tauto
    rcases either with early | late
    · obtain ⟨r, rule, begins⟩ := first.complete t early
      exact ⟨r, List.mem_append_left _ rule, begins.mono (List.subset_append_left _ _)⟩
    · obtain ⟨r, rule, begins⟩ := second.complete t late
      exact ⟨r, List.mem_append_right _ rule, begins.mono (List.subset_append_right _ _)⟩
  sound r member := by
    have merged {t : Task} (either : t ∈ ts ++ tasks plan ∨ t ∈ ts' ++ tasks plan') :
        t ∈ ts ++ ts' ++ tasks (plan ++ plan') := by
      simp only [tasks, List.map_append, List.mem_append] at either ⊢
      tauto
    rcases List.mem_append.mp member with early | late
    · obtain ⟨t, task, begins⟩ := first.sound r early
      exact ⟨t, merged (.inl task), begins.mono (List.subset_append_left _ _)⟩
    · obtain ⟨t, task, begins⟩ := second.sound r late
      exact ⟨t, merged (.inr task), begins.mono (List.subset_append_right _ _)⟩
  owed x member := by
    rcases List.mem_append.mp member with early | late
    · obtain ⟨some, t, task, inside⟩ := first.owed x early
      exact ⟨some, t, List.mem_append_left _ task, inside⟩
    · obtain ⟨some, t, task, inside⟩ := second.owed x late
      exact ⟨some, t, List.mem_append_right _ task, inside⟩

end Serves

end Plan

/-! ### What is built -/

variable {a : Allocator} {E : Error → Prop}

theorem pushRules_ensures (p : State) (popped : Symbol) {es : List Element} (some : es ≠ []) :
    (pushRules p popped es).Ensures a
      (fun built b => ∃ plan : Plan, plan.Serves [⟨p, popped, es⟩] a b built) E := by
  fun_induction pushRules p popped es generalizing a with
  | case1 => exact absurd rfl some
  | case2 p popped e => exact .pure ⟨[], .one (.element (by simp))⟩
  | case3 p popped e es more ih =>
      refine .bind .draw fun q b ab new => .bind (ih q more) fun built c bc served => ?_
      obtain ⟨rules, states⟩ := built
      obtain ⟨plan, serves⟩ := served
      exact .pure ⟨_, .cons ab bc new.1 more serves⟩

/-- The task of a production: its head is popped, and its output is pushed from right to left. -/
def expansion (p : Production) : Task := ⟨loopState, p.head, p.output.elements.reverse⟩

theorem productionRules_ensures (p : Production) :
    (productionRules p.head p.output).Ensures a
      (fun built b => ∃ plan : Plan, plan.Serves [expansion p] a b built) E := by
  unfold productionRules expansion
  split
  · rename_i nothing
    rw [nothing]
    exact .pure ⟨[], .one .nothing⟩
  · rename_i some
    exact pushRules_ensures loopState p.head fun same => some (List.reverse_eq_nil_iff.mp same)

/-- All the rules in between push the outputs of the productions, each on a path of its own. -/
theorem expansionRules_ensures (ps : List Production) :
    (expansionRules ps).Ensures a
      (fun built b => ∃ plan : Plan, plan.Serves (ps.map expansion) a b built) E := by
  induction ps generalizing a with
  | nil => exact .pure ⟨[], .nil⟩
  | cons p ps ih =>
      refine .bind (productionRules_ensures p) fun built b ab first =>
        .bind ih fun built' c bc second => ?_
      obtain ⟨rules, states⟩ := built
      obtain ⟨rules', states'⟩ := built'
      obtain ⟨plan, serves⟩ := first
      obtain ⟨plan', serves'⟩ := second
      exact .pure ⟨_, serves.append ab bc serves'⟩

/-! ### How many states are taken -/

theorem pushRules_takes (p : State) (popped : Symbol) (es : List Element) :
    (pushRules p popped es).Takes a (es.length - 1) fun _ _ => True := by
  fun_induction pushRules p popped es generalizing a with
  | case1 | case2 => exact .pure trivial
  | case3 p popped e es more ih =>
      have counted : (e :: es).length - 1 = es.length - 1 + 1 := by
        have := List.length_pos_iff.mpr more
        simp only [List.length_cons]
        omega
      rw [counted]
      exact .draw_bind fun q c => (ih q).bind (k := 0) fun _ _ _ _ _ => .pure trivial

theorem productionRules_takes (p : Production) :
    (productionRules p.head p.output).Takes a (p.output.elements.length - 1)
      fun _ _ => True := by
  unfold productionRules
  split
  · rename_i nothing
    rw [nothing]
    exact .pure trivial
  · rw [← List.length_reverse]
    exact pushRules_takes loopState p.head _

theorem expansionRules_takes (ps : List Production) :
    (expansionRules ps).Takes a (expansionCount ps) fun _ _ => True := by
  induction ps generalizing a with
  | nil => exact .pure trivial
  | cons p ps ih =>
      exact (productionRules_takes p).bind fun _ _ _ _ _ =>
        ih.bind (k := 0) fun _ _ _ _ _ => .pure trivial

end Automata.CFG
