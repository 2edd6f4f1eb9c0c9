import Automata.Proofs.CFG.Relaxed
import Automata.Proofs.PDA.Run

/-! # What the states of a compiled grammar are for

A state of the compiled automaton opens the stack, marks its bottom, owes some elements that it
still has to push, or ends the run. Its role and the stack together stand for a sentential form,
and each move leads to a form from which the one before can be spelled.
-/

namespace Automata.CFG

/-- What a state is for. -/
inductive Role where
  | start
  | marked
  | owing (es : List Element)
  | finish

/-- A move between roles: what it pops, what it reads, and what it pushes. -/
inductive RoleMove (c : CFG) : Role → Symbol → Symbol → Role → Symbol → Prop where
  | mark : RoleMove c .start Symbol.epsilon Symbol.epsilon .marked Symbol.bottom
  | enter : RoleMove c .marked Symbol.epsilon Symbol.epsilon (.owing []) c.start
  | push {e : Element} {es : List Element} : c.Uses e →
      RoleMove c (.owing (e :: es)) Symbol.epsilon Symbol.epsilon (.owing es) e.text
  | erase {name : String} {output : Form} :
      output ∈ c.grammar.outputs name → output.elements.reverse = [] →
        RoleMove c (.owing []) name Symbol.epsilon (.owing []) Symbol.epsilon
  | expand {name : String} {output : Form} {e : Element} {es : List Element} :
      output ∈ c.grammar.outputs name → output.elements.reverse = e :: es →
        RoleMove c (.owing []) name Symbol.epsilon (.owing es) e.text
  | read {a : Char} : a ∈ c.alphabet →
      RoleMove c (.owing []) (Symbol.ofChar a) (Symbol.ofChar a) (.owing []) Symbol.epsilon
  | leave : RoleMove c (.owing []) Symbol.bottom Symbol.epsilon .finish Symbol.epsilon

/-- Every state has one role, and the rules are the moves between roles. -/
structure Realizes (c : CFG) (roles : State → Role → Prop) (d : StackDiagram) : Prop where
  unique : ∀ {p X Y}, roles p X → roles p Y → X = Y
  sound : ∀ r ∈ d.rules, ∃ X Y, roles r.source X ∧ roles r.target Y ∧
    RoleMove c X r.popped r.tape Y r.pushed
  complete : ∀ {p X popped tape Y pushed}, roles p X → RoleMove c X popped tape Y pushed →
    ∃ q, roles q Y ∧ ⟨p, popped, tape, q, pushed⟩ ∈ d.rules
  start : roles d.start .start
  accepting : ∀ {p X}, roles p X → (p ∈ d.accepting ↔ X = .finish)

/-- With a stack, a role stands for the form that is still to be spelled. -/
inductive Stands (c : CFG) : Role → List Symbol → List Element → Prop where
  | start : Stands c .start [] [.nonterminal c.start]
  | marked : Stands c .marked [Symbol.bottom] [.nonterminal c.start]
  | owing (es f : List Element) : (∀ e ∈ es ++ f, c.Arises e) →
      Stands c (.owing es) (f.map Element.text ++ [Symbol.bottom]) (es.reverse ++ f)
  | finish : Stands c .finish [] []

/-- What is left of a stack after a symbol is popped. Popping ε takes nothing away. -/
inductive Pops : Symbol → List Symbol → List Symbol → Prop where
  | free {s : List Symbol} : Pops Symbol.epsilon s s
  | top {popped : Symbol} {s : List Symbol} : Pops popped (popped :: s) s

variable {c : CFG} {roles roles' : State → Role → Prop} {m m' : PDA} {X Y : Role}
  {p q : State} {C D : Configuration} {a popped tape pushed : Symbol} {s t : List Symbol}
  {es f : List Element} {w : List Char} {k : Nat}

namespace Realizes

variable (realizes : c.Realizes roles m.toStackDiagram)

include realizes

/-- Every move of the automaton is a move between roles. -/
theorem move_cases (role : roles C.state X) (move : m.Move a C D) :
    ∃ popped pushed Y t, RoleMove c X popped a Y pushed ∧ Pops popped C.stack t ∧
      roles D.state Y ∧ D.stack = Configuration.push t pushed := by
  cases move with
  | free rule =>
      obtain ⟨_, Y, source, target, allowed⟩ := realizes.sound _ rule
      obtain rfl := realizes.unique role source
      exact ⟨_, _, Y, _, allowed, .free, target, rfl⟩
  | pop rule =>
      obtain ⟨_, Y, source, target, allowed⟩ := realizes.sound _ rule
      obtain rfl := realizes.unique role source
      exact ⟨_, _, Y, _, allowed, .top, target, rfl⟩

/-- Every move between roles is a move of the automaton. -/
theorem move_ok (role : roles p X) (move : RoleMove c X popped tape Y pushed)
    (pops : Pops popped s t) :
    ∃ q, roles q Y ∧ m.Move tape ⟨p, s⟩ ⟨q, Configuration.push t pushed⟩ := by
  obtain ⟨q, target, rule⟩ := realizes.complete role move
  cases pops with
  | free => exact ⟨q, target, .free rule⟩
  | top => exact ⟨q, target, .pop rule⟩

end Realizes

/-- Two configurations have the same stack, and their states have the same role. -/
def Alike (roles roles' : State → Role → Prop) (C D : Configuration) : Prop :=
  C.stack = D.stack ∧ ∃ X, roles C.state X ∧ roles' D.state X

/-- Automata that realize the same grammar have the same runs. -/
theorem Realizes.hasRun (realizes : c.Realizes roles m.toStackDiagram)
    (other : c.Realizes roles' m'.toStackDiagram) (has : m.HasRun k w) : m'.HasRun k w := by
  have simulates {a C C' D} (related : Alike roles roles' C C') (move : m.Move a C D) :
      ∃ D', m'.Move a C' D' ∧ Alike roles roles' D D' := by
    obtain ⟨p', stack⟩ := C'
    obtain ⟨same, X, role, role'⟩ := related
    obtain ⟨popped, pushed, Y, t, allowed, pops, target, result⟩ := realizes.move_cases role move
    rw [same] at pops
    obtain ⟨q', target', move'⟩ := other.move_ok role' allowed pops
    exact ⟨_, move', result, Y, target, target'⟩
  obtain ⟨D, accepting, run⟩ := has
  have initial : Alike roles roles' ⟨m.start, []⟩ ⟨m'.start, []⟩ :=
    ⟨rfl, .start, realizes.start, other.start⟩
  obtain ⟨D', run', _, X, role, role'⟩ := run.simulate simulates initial
  have finished := (realizes.accepting role).mp accepting
  exact ⟨D', (other.accepting role').mpr finished, run'⟩

/-! ### The form that a configuration stands for -/

theorem push_bottom : Configuration.push s Symbol.bottom = Symbol.bottom :: s :=
  if_neg (by decide)

theorem push_epsilon : Configuration.push s Symbol.epsilon = s := if_pos rfl

theorem push_text (proper : Symbol.epsilon ∉ c.nonterminals) {e : Element} (used : c.Uses e) :
    Configuration.push s e.text = e.text :: s :=
  if_neg (text_ne_epsilon proper used)

/-- A nonempty symbol that is popped is the text of the first element, or the bottom marker. -/
theorem Pops.cases_text (pops : Pops popped (f.map Element.text ++ [Symbol.bottom]) t)
    (proper : popped ≠ Symbol.epsilon) :
    (∃ e g, f = e :: g ∧ e.text = popped ∧ t = g.map Element.text ++ [Symbol.bottom]) ∨
      (f = [] ∧ popped = Symbol.bottom ∧ t = []) := by
  generalize whole : f.map Element.text ++ [Symbol.bottom] = s at pops
  cases pops with
  | free => exact absurd rfl proper
  | top =>
      cases f with
      | nil =>
          cases whole
          exact .inr ⟨rfl, rfl, rfl⟩
      | cons e g =>
          cases whole
          exact .inl ⟨e, g, rfl, rfl, rfl⟩

theorem pops_epsilon (proper : Symbol.epsilon ∉ c.nonterminals) (used : ∀ e ∈ f, c.Uses e)
    (pops : Pops Symbol.epsilon (f.map Element.text ++ [Symbol.bottom]) t) :
    t = f.map Element.text ++ [Symbol.bottom] := by
  generalize whole : f.map Element.text ++ [Symbol.bottom] = s at pops
  cases pops with
  | free => rfl
  | top =>
      cases f with
      | nil => exact absurd (List.cons.inj whole).1 (by decide)
      | cons e g =>
          exact absurd (List.cons.inj whole).1 (text_ne_epsilon proper (used e (by simp)))

theorem uses_start : c.Uses (.nonterminal c.start) := c.start_mem

theorem uses_head {name : String} {output : Form} (produced : output ∈ c.grammar.outputs name) :
    c.Uses (.nonterminal name) :=
  head_mem_nonterminals produced

theorem uses_of_mem_start : ∀ e ∈ [Element.nonterminal c.start], c.Uses e := by
  intro e member
  obtain rfl := List.mem_singleton.mp member
  exact uses_start

/-- The elements that an expansion still owes, and the one it pushes at once, are of its output. -/
theorem arises_of_reverse {name : String} {output : Form} {e : Element}
    (produced : output ∈ c.grammar.outputs name) (last : output.elements.reverse = e :: es) :
    ∀ e' ∈ e :: es, c.Arises e' := by
  intro e' member
  refine .inr ⟨_, Grammar.mem_outputs.mp produced, ?_⟩
  rw [← List.mem_reverse, last]
  exact member

/-- With a nonterminal in use, everything in a form after its expansion is in use. -/
theorem uses_expanded {name : String} {output : Form} (produced : output ∈ c.grammar.outputs name)
    (used : ∀ e ∈ Element.nonterminal name :: f, c.Uses e) :
    ∀ e ∈ output.elements ++ f, c.Uses e := by
  intro e member
  rcases List.mem_append.mp member with new | old
  · exact uses_of_mem_outputs produced e new
  · exact used e (List.mem_cons_of_mem _ old)

theorem push_start (proper : Symbol.epsilon ∉ c.nonterminals) :
    Configuration.push [Symbol.bottom] c.start = [c.start, Symbol.bottom] :=
  push_text proper uses_start

theorem uses_letter {a : Char} (letter : a ∈ c.alphabet) : c.Uses (.terminal a) := letter

/-- Only the nonterminal itself is popped when it is expanded. -/
theorem Clear.pops_head (clear : c.Clear) (arises : ∀ e ∈ f, c.Arises e) {name : String}
    {output : Form} (produced : output ∈ c.grammar.outputs name)
    (pops : Pops name (f.map Element.text ++ [Symbol.bottom]) t) :
    ∃ g, f = .nonterminal name :: g ∧ t = g.map Element.text ++ [Symbol.bottom] := by
  have proper : name ≠ Symbol.epsilon :=
    text_ne_epsilon clear.epsilon_not_mem (uses_head produced)
  rcases pops.cases_text proper with ⟨e, g, rfl, same, rest⟩ | ⟨_, same, _⟩
  · obtain rfl := clear.eq_nonterminal (arises e (by simp)) produced same
    exact ⟨g, rfl, rest⟩
  · exact absurd same (clear.head_ne_bottom produced)

/-- A letter is popped with whatever is written like it, which the relaxed grammar lets become that
    letter. -/
theorem pops_letter {a : Char} (letter : a ∈ c.alphabet)
    (pops : Pops (Symbol.ofChar a) (f.map Element.text ++ [Symbol.bottom]) t) :
    ∃ e g, f = e :: g ∧ t = g.map Element.text ++ [Symbol.bottom] ∧
      ∀ w, c.relaxed.Spells g w → c.relaxed.Spells f (a :: w) := by
  have known := Alphabet.mem_symbols.mpr ⟨a, letter, rfl⟩
  have proper : Symbol.ofChar a ≠ Symbol.epsilon := fun same =>
    Alphabet.ne_epsilon letter (Symbol.ofChar_injective same)
  rcases pops.cases_text proper with
    ⟨e, g, rfl, same, rest⟩ | ⟨_, same, _⟩
  · refine ⟨e, g, rfl, rest, fun w spelled => ?_⟩
    cases e with
    | terminal b =>
        obtain rfl : b = a := Symbol.ofChar_injective same
        exact .terminal spelled
    | nonterminal name =>
        obtain rfl : name = Symbol.ofChar a := same
        exact .nonterminal (mem_outputs_relaxed.mpr (.inr ⟨a, letter, rfl, rfl⟩))
          (.terminal spelled)
  · exact absurd (same ▸ known) c.bottom_not_mem

/-- A move leads to a form from which the form before can be spelled. -/
theorem Stands.step (clear : c.Clear) (stands : Stands c X s f)
    (move : RoleMove c X popped tape Y pushed) (pops : Pops popped s t) :
    ∃ g, Stands c Y (Configuration.push t pushed) g ∧
      ∀ w, c.relaxed.Spells g w → c.relaxed.Spells f (tape.spelled ++ w) := by
  have proper := clear.epsilon_not_mem
  cases move with
  | mark =>
      cases stands
      cases pops
      rw [push_bottom]
      exact ⟨_, .marked, fun w spelled => spelled⟩
  | enter =>
      cases stands
      obtain rfl := pops_epsilon (f := []) proper (by simp) pops
      rw [List.map_nil, List.nil_append, push_start proper]
      exact ⟨_, .owing [] [.nonterminal c.start] (by simp [Arises]), fun w spelled => spelled⟩
  | push first =>
      rename_i e es
      cases stands with
      | owing _ f arises =>
          obtain rfl := pops_epsilon proper
            (fun e member => (arises e (List.mem_append_right _ member)).uses) pops
          rw [push_text proper first]
          refine ⟨_, .owing es (e :: f) ?_, fun w spelled => ?_⟩
          · intro e' member
            exact arises e' (by simpa [or_left_comm] using member)
          · simpa using spelled
  | erase produced nothing =>
      rename_i output
      cases stands with
      | owing _ f arises =>
          obtain ⟨g, rfl, rfl⟩ := clear.pops_head arises produced pops
          rw [push_epsilon]
          refine ⟨_, .owing [] g fun e member =>
            arises e (List.mem_cons_of_mem _ member), fun w spelled => ?_⟩
          refine .nonterminal (mem_outputs_relaxed.mpr (.inl produced)) ?_
          rw [List.reverse_eq_nil_iff.mp nothing]
          exact spelled
  | expand produced last =>
      rename_i output e es
      cases stands with
      | owing _ f arises =>
          obtain ⟨g, rfl, rfl⟩ := clear.pops_head arises produced pops
          have known := arises_of_reverse produced last
          rw [push_text proper (known e (by simp)).uses]
          refine ⟨_, .owing es (e :: g) ?_, fun w spelled => ?_⟩
          · intro e' member
            rcases List.mem_append.mp member with owed | stacked
            · exact known e' (List.mem_cons_of_mem e owed)
            · rcases List.mem_cons.mp stacked with rfl | below
              · exact known e' (by simp)
              · exact arises e' (List.mem_cons_of_mem _ below)
          · refine .nonterminal (mem_outputs_relaxed.mpr (.inl produced)) ?_
            rw [List.reverse_eq_cons_iff.mp last, List.append_assoc]
            exact spelled
  | read letter =>
      rename_i a
      cases stands with
      | owing _ f arises =>
          obtain ⟨e, g, rfl, rfl, spells⟩ := pops_letter letter pops
          rw [push_epsilon, Symbol.spelled_ofChar (Alphabet.ne_epsilon letter)]
          exact ⟨_, .owing [] g fun e' member =>
            arises e' (List.mem_cons_of_mem _ member), spells⟩
  | leave =>
      cases stands with
      | owing _ f arises =>
          rcases pops.cases_text (by decide) with ⟨e, g, rfl, same, _⟩ | ⟨rfl, _, rfl⟩
          · exact absurd same (clear.text_ne_bottom (arises e (by simp)))
          · rw [push_epsilon]
            exact ⟨_, .finish, fun w spelled => spelled⟩

/-! ### Runs -/

/-- A configuration stands for a form. -/
def Holds (c : CFG) (roles : State → Role → Prop) (C : Configuration) (f : List Element) : Prop :=
  ∃ X, roles C.state X ∧ Stands c X C.stack f

namespace Realizes

variable (realizes : c.Realizes roles m.toStackDiagram)

include realizes

section

variable (clear : c.Clear)

include clear

theorem holds_move (holds : Holds c roles C f) (move : m.Move a C D) :
    ∃ g, Holds c roles D g ∧ ∀ w, c.relaxed.Spells g w → c.relaxed.Spells f (a.spelled ++ w) := by
  obtain ⟨X, role, stands⟩ := holds
  obtain ⟨popped, pushed, Y, t, allowed, pops, target, result⟩ := realizes.move_cases role move
  obtain ⟨g, next, spells⟩ := stands.step clear allowed pops
  exact ⟨g, ⟨Y, target, result ▸ next⟩, spells⟩

theorem holds_waits (waits : m.Waits k C D) (holds : Holds c roles C f) :
    ∃ g, Holds c roles D g ∧ ∀ w, c.relaxed.Spells g w → c.relaxed.Spells f w := by
  induction waits generalizing f with
  | stay => exact ⟨f, holds, fun w spelled => spelled⟩
  | move move _ ih =>
      obtain ⟨g, next, spells⟩ := realizes.holds_move clear holds move
      obtain ⟨h, last, rest⟩ := ih next
      exact ⟨h, last, fun w spelled => spells w (rest w spelled)⟩

theorem holds_run (run : m.Run k C w D) (holds : Holds c roles C f)
    (letters : ∀ a ∈ w, a ≠ 'ε') :
    ∃ g, Holds c roles D g ∧ ∀ v, c.relaxed.Spells g v → c.relaxed.Spells f (w ++ v) := by
  induction run generalizing f with
  | done waits => exact realizes.holds_waits clear waits holds
  | @read _ _ _ _ a w waits move _ ih =>
      obtain ⟨g, next, before⟩ := realizes.holds_waits clear waits holds
      obtain ⟨h, read, spells⟩ := realizes.holds_move clear next move
      rw [Symbol.spelled_ofChar (letters a (by simp))] at spells
      obtain ⟨i, last, after⟩ := ih read fun b member => letters b (List.mem_cons_of_mem a member)
      exact ⟨i, last, fun v spelled => before _ (spells _ (after v spelled))⟩

/-- Whatever a run reads on the way to an accepting state is spelled by the relaxed grammar. -/
theorem spells_of_hasRun (has : m.HasRun k w) (letters : ∀ a ∈ w, a ≠ 'ε') :
    c.relaxed.Spells c.origin.elements w := by
  obtain ⟨⟨q, s⟩, accepting, run⟩ := has
  obtain ⟨g, ⟨X, role, stands⟩, spells⟩ :=
    realizes.holds_run clear run ⟨.start, realizes.start, .start⟩ letters
  obtain rfl := (realizes.accepting role).mp accepting
  cases stands
  have spelled := spells [] .nil
  rwa [List.append_nil] at spelled

end

/-- Whatever a run reads on the way to an accepting state is generated. -/
theorem generates_of_hasRun (legible : c.Legible) (has : m.HasRun k w)
    (letters : ∀ a ∈ w, a ≠ 'ε') : c.Generates w :=
  legible.unmistakable.generates (realizes.spells_of_hasRun legible.clear has letters)

variable (proper : Symbol.epsilon ∉ c.nonterminals)

include proper

/-- What a state owes ends up on the stack, the last element on top. -/
theorem waits_pushing (role : roles p (.owing es)) (used : ∀ e ∈ es, c.Uses e)
    (s : List Symbol) :
    ∃ q, roles q (.owing []) ∧
      m.Waits es.length ⟨p, s⟩ ⟨q, es.reverse.map Element.text ++ s⟩ := by
  induction es generalizing p s with
  | nil => exact ⟨p, role, .stay⟩
  | cons e es ih =>
      have first : c.Uses e := used e (by simp)
      obtain ⟨q, owing, move⟩ := realizes.move_ok role (.push first) (.free (s := s))
      rw [push_text proper first] at move
      obtain ⟨r, loop, waits⟩ := ih owing (fun e' member =>
        used e' (List.mem_cons_of_mem e member)) (e.text :: s)
      refine ⟨r, loop, .move move ?_⟩
      simpa using waits

/-- An output takes the place of its nonterminal in as many moves as it has elements, and in one if
    it has none. -/
theorem waits_expanding {name : String} {output : Form}
    (produced : output ∈ c.grammar.outputs name) (role : roles p (.owing [])) (s : List Symbol) :
    ∃ q, roles q (.owing []) ∧ m.Waits (max 1 output.elements.length) ⟨p, name :: s⟩
      ⟨q, output.elements.map Element.text ++ s⟩ := by
  cases last : output.elements.reverse with
  | nil =>
      obtain ⟨q, loop, move⟩ := realizes.move_ok role (.erase produced last) (.top (s := s))
      rw [push_epsilon] at move
      rw [List.reverse_eq_nil_iff.mp last]
      exact ⟨q, loop, .move move .stay⟩
  | cons e owed =>
      have mentioned := arises_of_reverse produced last
      obtain ⟨q, owing, move⟩ := realizes.move_ok role (.expand produced last) (.top (s := s))
      rw [push_text proper (mentioned e (by simp)).uses] at move
      obtain ⟨r, loop, waits⟩ := realizes.waits_pushing proper owing
        (fun e' member => (mentioned e' (List.mem_cons_of_mem e member)).uses) (e.text :: s)
      have whole : output.elements = owed.reverse ++ [e] := List.reverse_eq_cons_iff.mp last
      refine ⟨r, loop, ?_⟩
      have pushed : output.elements.map Element.text ++ s =
          owed.reverse.map Element.text ++ e.text :: s := by
        simp [whole]
      rw [pushed]
      exact (PDA.Waits.move move waits).mono (by simp [whole])

/-- Two moves put the start nonterminal on top of the bottom marker. -/
theorem waits_entering :
    ∃ q, roles q (.owing []) ∧ m.Waits 2 ⟨m.start, []⟩ ⟨q, [c.start, Symbol.bottom]⟩ := by
  obtain ⟨p, marked, mark⟩ := realizes.move_ok realizes.start .mark (.free (s := []))
  obtain ⟨q, loop, enter⟩ := realizes.move_ok marked .enter (.free (s := [Symbol.bottom]))
  rw [push_start proper] at enter
  exact ⟨q, loop, .move mark (.move enter .stay)⟩

omit proper in
/-- A character on top of the stack is read off it. -/
theorem move_reading {a : Char} (letter : a ∈ c.alphabet) (role : roles p (.owing []))
    (s : List Symbol) :
    ∃ q, roles q (.owing []) ∧ m.Move (Symbol.ofChar a) ⟨p, Symbol.ofChar a :: s⟩ ⟨q, s⟩ := by
  obtain ⟨q, loop, move⟩ := realizes.move_ok role (.read letter) (.top (s := s))
  rw [push_epsilon] at move
  exact ⟨q, loop, move⟩

omit proper in
/-- With nothing above the bottom marker a run can end. -/
theorem waits_leaving (role : roles p (.owing [])) :
    ∃ D, D.state ∈ m.accepting ∧ m.Waits 1 ⟨p, [Symbol.bottom]⟩ D := by
  obtain ⟨q, finish, move⟩ := realizes.move_ok role .leave (.top (s := []))
  exact ⟨_, (realizes.accepting finish).mpr rfl, .move move .stay⟩

/-- A form on the stack whose word the relaxed grammar spells is read off it. -/
theorem run_of_spells (spelled : c.relaxed.Spells f w) (used : ∀ e ∈ f, c.Uses e)
    (role : roles p (.owing [])) :
    ∃ k D, D.state ∈ m.accepting ∧
      m.Run k ⟨p, f.map Element.text ++ [Symbol.bottom]⟩ w D := by
  induction spelled generalizing p with
  | nil =>
      obtain ⟨D, accepting, waits⟩ := realizes.waits_leaving role
      exact ⟨1, D, accepting, .done waits⟩
  | @terminal a es w _ ih =>
      obtain ⟨q, loop, move⟩ := realizes.move_reading (used _ List.mem_cons_self) role
        (es.map Element.text ++ [Symbol.bottom])
      obtain ⟨k, D, accepting, run⟩ :=
        ih (fun e member => used e (List.mem_cons_of_mem _ member)) loop
      exact ⟨k, D, accepting, .read .stay move run⟩
  | @nonterminal name output es w produced _ ih =>
      rcases mem_outputs_relaxed.mp produced with produced | ⟨a, letter, rfl, rfl⟩
      · obtain ⟨q, loop, waits⟩ := realizes.waits_expanding proper produced role
          (es.map Element.text ++ [Symbol.bottom])
        obtain ⟨k, D, accepting, run⟩ := ih (uses_expanded produced used) loop
        rw [List.map_append, List.append_assoc] at run
        exact ⟨_, D, accepting, .wait waits run⟩
      · -- the stack is the same with the letter in the place of the nonterminal
        refine ih (fun e member => ?_) role
        rcases List.mem_cons.mp member with rfl | later
        · exact letter
        · exact used e (List.mem_cons_of_mem _ later)

/-- What the relaxed grammar spells from the start nonterminal is read within some bound. -/
theorem hasRun_of_spells (spelled : c.relaxed.Spells c.origin.elements w) : ∃ k, m.HasRun k w := by
  obtain ⟨q, loop, waits⟩ := realizes.waits_entering proper
  obtain ⟨k, D, accepting, run⟩ :=
    realizes.run_of_spells proper spelled uses_of_mem_start loop
  exact ⟨2 + k, D, accepting, .wait waits run⟩

/-- What is generated is read within some bound. -/
theorem hasRun_of_generates (generated : c.Generates w) : ∃ k, m.HasRun k w :=
  realizes.hasRun_of_spells proper
    (Grammar.derives_iff_spells.mp (derives_relaxed generated))

end Realizes

end Automata.CFG
