import Automata.Proofs.CFG.Plan
import Automata.Proofs.CFG.Roles

/-! # The automaton of a grammar

The compiled automaton is exact up to its bound: whatever it accepts is generated, and whatever is
generated is accepted once the bound is wide enough. How many states the construction takes is
settled by the outputs alone, and it fails only where the allocator has fewer left.
-/

namespace Automata.CFG

/-- The symbols that the stack of a compiled grammar may hold. -/
def stackSymbols (c : CFG) : SortedSet Symbol :=
  .ofList (Symbol.bottom :: c.nonterminals.toList ++ c.alphabet.symbols)

theorem mem_stackSymbols {c : CFG} {a : Symbol} :
    a ∈ c.stackSymbols ↔ a = Symbol.bottom ∨ ∃ e, c.Uses e ∧ a = e.text := by
  rw [stackSymbols, SortedSet.mem_ofList]
  simp only [List.cons_append, List.mem_cons, List.mem_append, Alphabet.mem_symbols]
  refine or_congr Iff.rfl ⟨fun known => ?_, fun ⟨e, used, same⟩ => ?_⟩
  · rcases known with name | ⟨letter, member, rfl⟩
    · exact ⟨.nonterminal a, name, rfl⟩
    · exact ⟨.terminal letter, member, rfl⟩
  · subst same
    cases e with
    | nonterminal name => exact .inl used
    | terminal letter => exact .inr ⟨letter, used, rfl⟩

namespace RoleMove

variable {c : CFG} {X Y : Role} {popped tape pushed : Symbol}

theorem tape_cases (move : RoleMove c X popped tape Y pushed) :
    tape = Symbol.epsilon ∨ tape ∈ c.alphabet.symbols := by
  cases move with
  | read letter => exact .inr (Alphabet.mem_symbols.mpr ⟨_, letter, rfl⟩)
  | _ => exact .inl rfl

theorem popped_cases (move : RoleMove c X popped tape Y pushed) :
    popped = Symbol.epsilon ∨ popped ∈ c.stackSymbols := by
  cases move with
  | mark | enter | push => exact .inl rfl
  | erase produced => exact .inr (mem_stackSymbols.mpr (.inr ⟨_, uses_head produced, rfl⟩))
  | expand produced => exact .inr (mem_stackSymbols.mpr (.inr ⟨_, uses_head produced, rfl⟩))
  | read letter => exact .inr (mem_stackSymbols.mpr (.inr ⟨_, uses_letter letter, rfl⟩))
  | leave => exact .inr (mem_stackSymbols.mpr (.inl rfl))

theorem pushed_cases (move : RoleMove c X popped tape Y pushed) :
    pushed = Symbol.epsilon ∨ pushed ∈ c.stackSymbols := by
  cases move with
  | mark => exact .inr (mem_stackSymbols.mpr (.inl rfl))
  | enter => exact .inr (mem_stackSymbols.mpr (.inr ⟨_, uses_start, rfl⟩))
  | push first => exact .inr (mem_stackSymbols.mpr (.inr ⟨_, first, rfl⟩))
  | expand produced last =>
      have first := uses_of_mem_outputs produced _ (List.mem_reverse.mp (last ▸ List.mem_cons_self))
      exact .inr (mem_stackSymbols.mpr (.inr ⟨_, first, rfl⟩))
  | erase | read | leave => exact .inl rfl

end RoleMove

/-- The rules of a compiled grammar, given those that push outputs. -/
def allRules (c : CFG) (marked : State) (rules : List StackRule) : RuleSet :=
  let opening : List StackRule :=
    [⟨startState, Symbol.epsilon, Symbol.epsilon, marked, Symbol.bottom⟩,
      ⟨marked, Symbol.epsilon, Symbol.epsilon, loopState, c.start⟩]
  let closing : StackRule :=
    ⟨loopState, Symbol.bottom, Symbol.epsilon, finalState, Symbol.epsilon⟩
  .ofList (opening ++ rules ++ c.alphabet.symbols.map matchRule ++ [closing])

/-- The diagram of a compiled grammar. -/
def assembled (c : CFG) (marked : State) (built : List StackRule × List State)
    (stack : StackAlphabet) : StackDiagram where
  states := .ofList (startState :: loopState :: finalState :: marked :: built.2)
  input := c.alphabet
  stack := stack
  rules := c.allRules marked built.1
  start := startState
  accepting := .singleton finalState

/-- The construction up to the bound on ε-moves. -/
def drawDiagram (c : CFG) : Building StackDiagram := do
  let marked ← Building.draw
  let built ← expansionRules c.grammar.productions.toList
  let stack ← Building.check (StackAlphabet.ofSet c.stackSymbols)
  return c.assembled marked built stack

theorem toPDA_eq (c : CFG) (bound : Option Int) :
    c.toPDA bound = c.drawDiagram >>= fun d => Building.check (PDA.ofDiagram d bound) := by
  simp only [drawDiagram, bind_assoc, pure_bind]
  rfl

/-! ### Roles of the states -/

/-- The states of a compiled grammar with their roles. -/
def roles (marked : State) (plan : Plan) : List (State × Role) :=
  (startState, .start) :: (marked, .marked) :: (finalState, .finish) ::
    ((loopState, []) :: plan).map fun x => (x.1, .owing x.2)

variable {c : CFG} {marked p q : State} {plan : Plan} {X : Role} {es : List Element}
  {a b d : Allocator} {built : List StackRule × List State} {stack : StackAlphabet}

theorem mem_roles_owing :
    (p, .owing es) ∈ roles marked plan ↔ (p, es) ∈ (loopState, []) :: plan := by
  simp [roles]

theorem mem_allRules {rules : List StackRule} {r : StackRule} :
    r ∈ c.allRules marked rules ↔
      r = ⟨startState, Symbol.epsilon, Symbol.epsilon, marked, Symbol.bottom⟩ ∨
      r = ⟨marked, Symbol.epsilon, Symbol.epsilon, loopState, c.start⟩ ∨
      r ∈ rules ∨ (∃ a ∈ c.alphabet, r = matchRule (Symbol.ofChar a)) ∨
      r = ⟨loopState, Symbol.bottom, Symbol.epsilon, finalState, Symbol.epsilon⟩ := by
  have letters : r ∈ c.alphabet.symbols.map matchRule ↔
      ∃ a ∈ c.alphabet, r = matchRule (Symbol.ofChar a) := by
    simp only [List.mem_map, Alphabet.mem_symbols]
    constructor
    · intro ⟨_, ⟨a, letter, rfl⟩, same⟩
      exact ⟨a, letter, same.symm⟩
    · intro ⟨a, letter, same⟩
      exact ⟨_, ⟨a, letter, rfl⟩, same.symm⟩
  rw [allRules, SortedSet.mem_ofList]
  simp only [List.mem_append, List.mem_cons, List.not_mem_nil, or_false, letters, or_assoc]

section Roles

variable (ab : a.Before b) (new : a.Drawn b marked)
  (serves : plan.Serves (c.grammar.productions.toList.map expansion) b d built)

include serves

theorem owed_uses {x : State × List Element} (listed : x ∈ plan) : ∀ e ∈ x.2, c.Uses e := by
  intro e owed
  obtain ⟨_, t, task, inside⟩ := serves.owed x listed
  obtain ⟨p, production, rfl⟩ := List.mem_map.mp task
  have element : e ∈ p.output.elements := List.mem_reverse.mp (inside e owed)
  exact uses_of_mem_outputs (Grammar.mem_outputs.mpr production) e element

theorem eq_loopState (role : (p, .owing []) ∈ roles marked plan) : p = loopState := by
  rcases List.mem_cons.mp (mem_roles_owing.mp role) with same | listed
  · exact congrArg Prod.fst same
  · exact absurd rfl (serves.owed _ listed).1

include ab new

theorem nodup_roles : ((roles marked plan).map Prod.fst).Nodup := by
  have named {p d : _} (drawn : a.Drawn d p) : p ≠ startState ∧ p ≠ loopState ∧ p ≠ finalState :=
    ⟨drawn.ne_of_not_isDigit (by decide), drawn.ne_of_not_isDigit (by decide),
      drawn.ne_of_not_isDigit (by decide)⟩
  have planned : ∀ p ∈ plan.map Prod.fst,
      p ≠ startState ∧ p ≠ loopState ∧ p ≠ finalState ∧ p ≠ marked := by
    intro p member
    obtain ⟨x, listed, rfl⟩ := List.mem_map.mp member
    have drawn := serves.drawn x listed
    obtain ⟨h₁, h₂, h₃⟩ := named (.left ab drawn)
    refine ⟨h₁, h₂, h₃, fun same => ?_⟩
    exact (new.past ab).not_drawn (same ▸ drawn)
  obtain ⟨h₁, h₂, h₃⟩ := named new
  have keys : (roles marked plan).map Prod.fst =
      startState :: marked :: finalState :: loopState :: plan.map Prod.fst := by
    simp [roles, Function.comp_def]
  rw [keys]
  simp only [List.nodup_cons, List.mem_cons, not_or]
  exact ⟨⟨h₁.symm, by decide, by decide, fun member => (planned _ member).1 rfl⟩,
    ⟨h₃, h₂, fun member => (planned _ member).2.2.2 rfl⟩,
    ⟨by decide, fun member => (planned _ member).2.2.1 rfl⟩,
    fun member => (planned _ member).2.1 rfl, serves.nodup⟩

theorem role_unique {Y : Role} (role : (p, X) ∈ roles marked plan)
    (other : (p, Y) ∈ roles marked plan) : X = Y :=
  congrArg Prod.snd (List.inj_on_of_nodup_map (nodup_roles ab new serves) role other rfl)

omit ab new

theorem move_of_rule {r : StackRule} (rule : r ∈ c.allRules marked built.1) :
    ∃ X Y, (r.source, X) ∈ roles marked plan ∧ (r.target, Y) ∈ roles marked plan ∧
      RoleMove c X r.popped r.tape Y r.pushed := by
  have loop : (loopState, .owing []) ∈ roles marked plan := mem_roles_owing.mpr List.mem_cons_self
  rcases mem_allRules.mp rule with rfl | rfl | pushing | ⟨a, letter, rfl⟩ | rfl
  · exact ⟨.start, .marked, by simp [roles], by simp [roles], .mark⟩
  · exact ⟨.marked, .owing [], by simp [roles], loop, .enter⟩
  · obtain ⟨t, task, begins⟩ := serves.sound r pushing
    rcases List.mem_append.mp task with production | between
    · obtain ⟨p, listed, rfl⟩ := List.mem_map.mp production
      have produced : p.output ∈ c.grammar.outputs p.head := Grammar.mem_outputs.mpr listed
      generalize last : p.output.elements.reverse = es at begins
      unfold expansion at begins
      rw [last] at begins
      cases begins with
      | nothing => exact ⟨.owing [], .owing [], loop, loop, .erase produced last⟩
      | element next =>
          exact ⟨.owing [], .owing _, loop, mem_roles_owing.mpr next, .expand produced last⟩
    · obtain ⟨⟨q, es⟩, listed, rfl⟩ := List.mem_map.mp between
      have source : (q, .owing es) ∈ roles marked plan :=
        mem_roles_owing.mpr (List.mem_cons_of_mem _ listed)
      have uses := owed_uses serves listed
      have some := (serves.owed _ listed).1
      cases begins with
      | nothing => exact absurd rfl some
      | element next =>
          exact ⟨.owing _, .owing _, source, mem_roles_owing.mpr next, .push (uses _ (by simp))⟩
  · exact ⟨.owing [], .owing [], loop, loop, .read letter⟩
  · exact ⟨.owing [], .finish, loop, by simp [roles], .leave⟩

theorem rule_of_move {Y : Role} {popped tape pushed : Symbol} (role : (p, X) ∈ roles marked plan)
    (move : RoleMove c X popped tape Y pushed) :
    ∃ q, (q, Y) ∈ roles marked plan ∧ ⟨p, popped, tape, q, pushed⟩ ∈ c.allRules marked built.1 := by
  have loop : (loopState, .owing []) ∈ roles marked plan := mem_roles_owing.mpr List.mem_cons_self
  have begun {t : Task} (task : t ∈ c.grammar.productions.toList.map expansion ++ plan.tasks) :
      ∃ r ∈ c.allRules marked built.1, plan.Begins t r := by
    obtain ⟨r, rule, begins⟩ := serves.complete t task
    exact ⟨r, mem_allRules.mpr (.inr (.inr (.inl rule))), begins⟩
  cases move with
  | mark =>
      obtain rfl : p = startState := by simpa [roles] using role
      exact ⟨marked, by simp [roles], mem_allRules.mpr (.inl rfl)⟩
  | enter =>
      obtain rfl : p = marked := by simpa [roles] using role
      exact ⟨loopState, loop, mem_allRules.mpr (.inr (.inl rfl))⟩
  | push first =>
      rename_i e es
      have listed : (p, e :: es) ∈ plan := by simpa using mem_roles_owing.mp role
      obtain ⟨r, rule, begins⟩ :=
        begun (List.mem_append_right _ (List.mem_map.mpr ⟨_, listed, rfl⟩))
      cases begins with
      | element next => exact ⟨_, mem_roles_owing.mpr next, rule⟩
  | erase produced nothing =>
      rename_i output
      obtain rfl := eq_loopState serves role
      have listed := Grammar.mem_outputs.mp produced
      obtain ⟨r, rule, begins⟩ := begun (List.mem_append_left _ (List.mem_map.mpr ⟨_, listed, rfl⟩))
      simp only [expansion, nothing] at begins
      cases begins with
      | nothing => exact ⟨_, loop, rule⟩
  | expand produced last =>
      rename_i output e es
      obtain rfl := eq_loopState serves role
      have listed := Grammar.mem_outputs.mp produced
      obtain ⟨r, rule, begins⟩ := begun (List.mem_append_left _ (List.mem_map.mpr ⟨_, listed, rfl⟩))
      simp only [expansion, last] at begins
      cases begins with
      | element next => exact ⟨_, mem_roles_owing.mpr next, rule⟩
  | read letter =>
      obtain rfl := eq_loopState serves role
      exact ⟨loopState, loop, mem_allRules.mpr (.inr (.inr (.inr (.inl ⟨_, letter, rfl⟩))))⟩
  | leave =>
      obtain rfl := eq_loopState serves role
      exact ⟨finalState, by simp [roles], mem_allRules.mpr (.inr (.inr (.inr (.inr rfl))))⟩

include ab new

theorem realizes_assembled :
    c.Realizes (fun p X => (p, X) ∈ roles marked plan) (c.assembled marked built stack) where
  unique role other := role_unique ab new serves role other
  sound r rule := move_of_rule serves rule
  complete role move := rule_of_move serves role move
  start := by simp [roles, assembled]
  accepting {p X} role := by
    have final : (finalState, .finish) ∈ roles marked plan := by simp [roles]
    rw [assembled, SortedSet.mem_singleton]
    constructor
    · rintro rfl
      exact role_unique ab new serves role final
    · rintro rfl
      simpa [roles] using role

omit ab new

theorem mem_states_assembled (role : (p, X) ∈ roles marked plan) :
    p ∈ (c.assembled marked built stack).states := by
  rw [assembled, SortedSet.mem_ofList, serves.states]
  simp only [roles, List.map_cons, List.mem_cons, List.mem_map, Prod.mk.injEq] at role ⊢
  rcases role with ⟨rfl, _⟩ | ⟨rfl, _⟩ | ⟨rfl, _⟩ | ⟨rfl, _⟩ | ⟨x, listed, rfl, _⟩
  · exact .inl rfl
  · exact .inr (.inr (.inr (.inl rfl)))
  · exact .inr (.inr (.inl rfl))
  · exact .inr (.inl rfl)
  · exact .inr (.inr (.inr (.inr ⟨x, listed, rfl⟩)))

theorem closed_assembled (symbols : stack.symbols = c.stackSymbols) :
    (c.assembled marked built stack).Closed where
  start_mem := by simp [assembled]
  accepting_mem p final := by
    obtain rfl := SortedSet.mem_singleton.mp final
    simp [assembled]
  source_mem r rule := by
    obtain ⟨X, _, source, _⟩ := move_of_rule serves rule
    exact mem_states_assembled serves source
  target_mem r rule := by
    obtain ⟨_, Y, _, target, _⟩ := move_of_rule serves rule
    exact mem_states_assembled serves target
  tape_mem a read := by
    obtain ⟨used, other⟩ := SortedSet.mem_diff.mp read
    obtain ⟨r, rule, rfl⟩ := SortedSet.mem_map.mp used
    obtain ⟨_, _, _, _, move⟩ := move_of_rule serves rule
    rcases move.tape_cases with silent | letter
    · exact absurd (SortedSet.mem_singleton.mpr silent) other
    · exact letter
  stack_mem a held := by
    obtain ⟨used, other⟩ := SortedSet.mem_diff.mp held
    have other : a ≠ Symbol.epsilon := fun same => other (SortedSet.mem_singleton.mpr same)
    show a ∈ stack.symbols
    rw [symbols]
    rcases SortedSet.mem_union.mp used with popped | pushed
    · obtain ⟨r, rule, rfl⟩ := SortedSet.mem_map.mp popped
      obtain ⟨_, _, _, _, move⟩ := move_of_rule serves rule
      exact move.popped_cases.resolve_left other
    · obtain ⟨r, rule, rfl⟩ := SortedSet.mem_map.mp pushed
      obtain ⟨_, _, _, _, move⟩ := move_of_rule serves rule
      exact move.pushed_cases.resolve_left other

end Roles

/-! ### The construction succeeds -/

theorem stackAlphabet_ok (proper : Symbol.epsilon ∉ c.nonterminals) :
    ∃ stack, StackAlphabet.ofSet c.stackSymbols = .ok stack ∧ stack.symbols = c.stackSymbols := by
  have bottom : Symbol.bottom ∈ c.stackSymbols := SortedSet.mem_ofList.mpr List.mem_cons_self
  have some : c.stackSymbols ≠ ∅ := by
    intro empty
    exact SortedSet.not_mem_empty _ (empty ▸ bottom)
  have unused : Symbol.epsilon ∉ c.stackSymbols := by
    intro member
    rcases mem_stackSymbols.mp member with same | ⟨e, used, same⟩
    · exact absurd same (by decide)
    · exact text_ne_epsilon proper used same.symm
  refine ⟨⟨c.stackSymbols, some, unused⟩, ?_, rfl⟩
  rw [StackAlphabet.ofSet, dif_neg some, dif_neg unused]

theorem drawDiagram_realizes (proper : Symbol.epsilon ∉ c.nonterminals) :
    c.drawDiagram.Ensures a
      (fun d _ => d.Closed ∧ d.input = c.alphabet ∧ ∃ roles, c.Realizes roles d)
      (fun _ => False) := by
  unfold drawDiagram
  obtain ⟨stack, checked, symbols⟩ := stackAlphabet_ok proper
  rw [checked]
  refine .bind .draw fun marked b ab new => .bind (expansionRules_ensures _) fun built d _ served =>
    .bind (.check_ok (P := fun s _ => s = stack) rfl) fun _ _ _ same => .pure ?_
  obtain rfl := same
  obtain ⟨plan, serves⟩ := served
  exact ⟨closed_assembled serves symbols, rfl, _, realizes_assembled ab new.1 serves⟩

theorem drawDiagram_ensures (legible : c.Legible) :
    c.drawDiagram.Ensures a
      (fun d _ => d.Closed ∧ d.input = c.alphabet ∧ ∃ roles, c.Realizes roles d)
      (fun _ => False) :=
  drawDiagram_realizes legible.clear.epsilon_not_mem

theorem drawDiagram_takes (proper : Symbol.epsilon ∉ c.nonterminals) :
    c.drawDiagram.Takes a c.stateCount fun _ _ => True := by
  unfold drawDiagram stateCount
  obtain ⟨stack, checked, _⟩ := stackAlphabet_ok proper
  rw [checked]
  exact .draw_bind fun marked b => (expansionRules_takes _).bind (k := 0) fun _ _ _ _ _ =>
    .check_bind (by simp) fun _ _ => .pure trivial

theorem toPDA_ensures (proper : Symbol.epsilon ∉ c.nonterminals) (bound : Option Int) :
    (c.toPDA bound).Ensures a
      (fun m _ => m.input = c.alphabet ∧ (∃ roles, c.Realizes roles m.toStackDiagram) ∧
        ∀ k, bound = some k → (m.bound : Int) = k)
      (fun e => ∃ k < 0, bound = some k ∧ e = .negativeBound k) := by
  rw [toPDA_eq]
  refine .bind ((drawDiagram_realizes proper).weaken (fun _ _ _ drawn => drawn) fun _ => False.elim)
    fun d _ _ ⟨closed, input, realizes⟩ => ?_
  rw [PDA.ofDiagram, StackDiagram.checkClosed_ok closed]
  cases bound with
  | none => exact .check_ok ⟨input, realizes, fun k same => by cases same⟩
  | some k =>
      by_cases negative : k < 0
      · simp only [bind, Except.bind, if_pos negative]
        exact .check_error ⟨k, negative, rfl, rfl⟩
      · simp only [bind, Except.bind, if_neg negative]
        refine .check_ok ⟨input, realizes, fun k' same => ?_⟩
        cases same
        exact Int.toNat_of_nonneg (by omega)

theorem toPDA_of_drawDiagram {bound : Option Int} {d : StackDiagram} {b : Allocator}
    (run : c.drawDiagram.runFrom a = (.ok d, b)) :
    ((c.toPDA bound).runFrom a).1 = PDA.ofDiagram d bound := by
  rw [toPDA_eq, Building.runFrom_bind, run]
  rfl

theorem toPDA_run (d : StackDiagram) (closed : d.Closed) {b : Allocator} (k : Nat)
    (run : c.drawDiagram.runFrom a = (.ok d, b)) :
    ((c.toPDA (some k)).runFrom a).1 = .ok ⟨d, closed, k⟩ := by
  have wide : ¬ (k : Int) < 0 := by omega
  rw [toPDA_of_drawDiagram run]
  simp only [PDA.ofDiagram, StackDiagram.checkClosed_ok closed, bind, Except.bind, if_neg wide,
    Int.toNat_natCast]
  rfl

theorem toPDA_of_ok {bound : Option Int} {m : PDA} (proper : Symbol.epsilon ∉ c.nonterminals)
    (run : ((c.toPDA bound).runFrom a).1 = .ok m) :
    m.input = c.alphabet ∧ (∃ roles, c.Realizes roles m.toStackDiagram) ∧
      ∀ k, bound = some k → (m.bound : Int) = k :=
  ((toPDA_ensures proper bound).of_ok (Prod.ext run rfl)).2

/-- If the allocator has as many states left as are taken, the automata for all bounds exist, and
    together they accept what is generated. -/
theorem toPDA_complete (legible : c.Legible) (enough : a.Supplies c.stateCount) :
    ∃ m : Nat → PDA, (∀ k : Nat, ((c.toPDA (some k)).runFrom a).1 = .ok (m k)) ∧
      ∀ word : String, (∀ x ∈ word.toList, x ∈ c.alphabet) →
        (∀ k, ∃ b, (m k).accepts word = .ok b) ∧
        (c.Generates word.toList ↔ ∃ k, (m k).accepts word = .ok true) := by
  obtain ⟨d, b, run, closed, input, _, realizes⟩ :=
    (drawDiagram_takes legible.clear.epsilon_not_mem).ok_of_supplies
      (drawDiagram_ensures legible) enough
  refine ⟨fun k => ⟨d, closed, k⟩, fun k => toPDA_run d closed k run, fun word covered => ?_⟩
  have covered' : ∀ x ∈ word.toList, x ∈ d.input := input ▸ covered
  refine ⟨fun k => ?_, fun generated => ?_, fun ⟨k, accepted⟩ => ?_⟩
  · obtain ⟨answer, accepts, _⟩ := (⟨d, closed, k⟩ : PDA).accepts_ok covered'
    exact ⟨answer, accepts⟩
  · obtain ⟨k, has⟩ := realizes.hasRun_of_generates (m := ⟨d, closed, 0⟩)
      legible.clear.epsilon_not_mem generated
    have wide : (⟨d, closed, k⟩ : PDA).HasRun k word.toList := realizes.hasRun realizes has
    exact ⟨k, PDA.accepts_iff.mpr ⟨covered', wide⟩⟩
  · have has := (PDA.accepts_iff.mp accepted).2
    exact realizes.generates_of_hasRun legible has fun x member =>
      Alphabet.ne_epsilon (covered x member)

/-- If it has fewer left, the numbers run out whatever the bound. -/
theorem toPDA_of_lacking (legible : c.Legible) (lacking : ¬ a.Supplies c.stateCount)
    (bound : Option Int) : ((c.toPDA bound).runFrom a).1 = .error .numbersExhausted := by
  obtain ⟨b, run⟩ := (drawDiagram_takes legible.clear.epsilon_not_mem).exhausted_of_lacking
    (drawDiagram_ensures legible) lacking
  rw [toPDA_eq, Building.runFrom_bind, run]

/-- A wider bound accepts no less, whatever the allocators were. -/
theorem toPDA_mono {a' : Allocator} {k k' : Int} {m m' : PDA} {word : String}
    (legible : c.Legible) (run : ((c.toPDA (some k)).runFrom a).1 = .ok m)
    (run' : ((c.toPDA (some k')).runFrom a').1 = .ok m') (wider : k ≤ k')
    (accepted : m.accepts word = .ok true) : m'.accepts word = .ok true := by
  obtain ⟨input, ⟨_, realizes⟩, bounded⟩ := toPDA_of_ok legible.clear.epsilon_not_mem run
  obtain ⟨input', ⟨_, realizes'⟩, bounded'⟩ := toPDA_of_ok legible.clear.epsilon_not_mem run'
  obtain ⟨covered, D, accepting, read⟩ := PDA.accepts_iff.mp accepted
  have narrower : m.bound ≤ m'.bound := by
    have := bounded k rfl
    have := bounded' k' rfl
    omega
  have has : m.HasRun m'.bound word.toList := ⟨D, accepting, read.mono narrower⟩
  rw [input, ← input'] at covered
  exact PDA.accepts_iff.mpr ⟨covered, realizes.hasRun realizes' has⟩

/-- No bound accepts what is not generated. -/
theorem toPDA_sound {bound : Option Int} {m : PDA} {word : String} (legible : c.Legible)
    (run : ((c.toPDA bound).runFrom a).1 = .ok m) (accepted : m.accepts word = .ok true) :
    c.Generates word.toList := by
  obtain ⟨input, ⟨_, realizes⟩, _⟩ := toPDA_of_ok legible.clear.epsilon_not_mem run
  obtain ⟨covered, has⟩ := PDA.accepts_iff.mp accepted
  rw [input] at covered
  exact realizes.generates_of_hasRun legible has fun x member =>
    Alphabet.ne_epsilon (covered x member)

/-- For rules that can be read there is an automaton for every bound, if the allocator has as many
    states left as the automaton takes, and the words that some of them accepts are those that are
    generated. If it has fewer left, the numbers run out. A wider bound accepts no less, whatever
    the allocators were, and no bound accepts anything else. -/
theorem toPDA_accepts_iff_generates {rules : List String} {start : String}
    (read : ofRules rules start = .ok c) :
    (∀ a : Allocator,
      (a.largest = none → a.Supplies c.stateCount) ∧
      (a.Supplies c.stateCount →
        ∃ m : Nat → PDA, (∀ k : Nat, ((c.toPDA (some k)).runFrom a).1 = .ok (m k)) ∧
          ∀ word : String, (∀ x ∈ word.toList, x ∈ c.alphabet) →
            (∀ k, ∃ b, (m k).accepts word = .ok b) ∧
            (c.Generates word.toList ↔ ∃ k, (m k).accepts word = .ok true)) ∧
      (¬ a.Supplies c.stateCount →
        ∀ k : Int, ((c.toPDA (some k)).runFrom a).1 = .error .numbersExhausted)) ∧
    (∀ (a a' : Allocator) (k k' : Int) (m m' : PDA) (word : String),
      ((c.toPDA (some k)).runFrom a).1 = .ok m → ((c.toPDA (some k')).runFrom a').1 = .ok m' →
        k ≤ k' → m.accepts word = .ok true → m'.accepts word = .ok true) ∧
    ∀ (a : Allocator) (bound : Option Int) (m : PDA) (word : String),
      ((c.toPDA bound).runFrom a).1 = .ok m → m.accepts word = .ok true →
        c.Generates word.toList := by
  have legible := legible_of_ofRules read
  exact ⟨fun a => ⟨fun endless => Building.supplies_of_endless endless _, toPDA_complete legible,
      fun lacking k => toPDA_of_lacking legible lacking (some k)⟩,
    fun _ _ _ _ _ _ _ => toPDA_mono legible, fun _ _ _ _ => toPDA_sound legible⟩

/-- The grammar of the words `aⁿbⁿ`, compiled with an allocator that is limited but has the three
    states that are taken. -/
theorem toPDA_accepts_aabb :
    ∃ c, ofRules ["S -> aSb | ε"] "S" = .ok c ∧ c.stateCount = 3 ∧
      (Allocator.startingAt "q" 0 ∅).Supplies c.stateCount ∧ ∃ m : Nat → PDA,
        (∀ k : Nat, ((c.toPDA (some k)).runFrom (.startingAt "q" 0 ∅)).1 = .ok (m k)) ∧
          ∃ k, (m k).accepts "aabb" = .ok true := by
  let outputs : List Form := [⟨[.terminal 'a', .nonterminal "S", .terminal 'b']⟩, ⟨[]⟩]
  have enough : (Allocator.startingAt "q" 0 ∅).Supplies 3 := by decide +kernel
  -- from here on the largest number is not looked at any more
  generalize Allocator.startingAt "q" 0 ∅ = a at enough ⊢
  obtain ⟨c, read, start, produced, letters, count⟩ :
      ∃ c, ofRules ["S -> aSb | ε"] "S" = .ok c ∧ c.start = "S" ∧
        (∀ f ∈ outputs, f ∈ c.grammar.outputs "S") ∧ ('a' ∈ c.alphabet ∧ 'b' ∈ c.alphabet) ∧
          c.stateCount = 3 :=
    exists_ok_of_any (by decide +kernel)
  rw [← count] at enough
  obtain ⟨m, runs, exact⟩ := ((toPDA_accepts_iff_generates read).1 a).2.1 enough
  have wrap := produced _ List.mem_cons_self
  have stop := produced _ (List.mem_cons_of_mem _ List.mem_cons_self)
  have spelled : c.grammar.Spells [.nonterminal c.start] "aabb".toList := by
    rw [start]
    exact .nonterminal wrap (.terminal (.nonterminal wrap (.terminal
      (.nonterminal stop (.terminal (.terminal .nil))))))
  have covered : ∀ x ∈ "aabb".toList, x ∈ c.alphabet := by simp [letters]
  exact ⟨c, read, count, enough, m, runs,
    (exact "aabb" covered).2.mp (Grammar.derives_iff_spells.mpr spelled)⟩

/-- An allocator that starts at its largest number names one state, and the automaton of a word of
    two letters takes two. -/
theorem toPDA_runs_out :
    ∃ c, ofRules ["S -> ab"] "S" = .ok c ∧ c.Generates "ab".toList ∧
      (∀ x ∈ "ab".toList, x ∈ c.alphabet) ∧
        ∀ k : Int, ((c.toPDA (some k)).runFrom (.startingAt "q" Text.largestNumber ∅)).1 =
          .error .numbersExhausted := by
  let output : Form := ⟨[.terminal 'a', .terminal 'b']⟩
  obtain ⟨c, read, start, produced, letters, count⟩ :
      ∃ c, ofRules ["S -> ab"] "S" = .ok c ∧ c.start = "S" ∧ output ∈ c.grammar.outputs "S" ∧
        ('a' ∈ c.alphabet ∧ 'b' ∈ c.alphabet) ∧ c.stateCount = 2 :=
    exists_ok_of_any (by decide +kernel)
  have spelled : c.grammar.Spells [.nonterminal c.start] "ab".toList := by
    rw [start]
    exact .nonterminal produced (.terminal (.terminal .nil))
  have covered : ∀ x ∈ "ab".toList, x ∈ c.alphabet := by simp [letters]
  have lacking : ¬ (Allocator.startingAt "q" Text.largestNumber ∅).Supplies c.stateCount := by
    rw [count]
    refine Allocator.not_supplies_of_largest rfl (Int.le_of_lt (Int.lt_succ _)) ?_
    dsimp only [Allocator.startingAt]
    omega
  exact ⟨c, read, Grammar.derives_iff_spells.mpr spelled, covered,
    fun k => toPDA_of_lacking (legible_of_ofRules read) lacking (some k)⟩

end Automata.CFG
