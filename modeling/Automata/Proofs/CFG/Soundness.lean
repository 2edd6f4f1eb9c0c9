import Automata.Proofs.CFG.ToPDA

/-! # Which grammars are compiled soundly

A grammar may declare any names. The compiled automaton accepts nothing but generated words exactly
when no derived form passes for a word before it is one and the start nonterminal is not written
like the bottom marker; a nonterminal that is written like ε keeps it from being built at all.
-/

namespace Automata.CFG

variable {names : SortedSet String} {A : Alphabet} {g : Grammar} {start : String} {c : CFG}
  {roles : State → Role → Prop} {m : PDA} {a : Allocator} {f : Form} {w : List Char}

theorem ofParts_spec (built : ofParts names A g start = .ok c) :
    c.nonterminals = names ∧ c.alphabet = A ∧ c.grammar = g ∧ c.start = start := by
  unfold ofParts at built
  repeat' split at built
  all_goals first | cases built; exact ⟨rfl, rfl, rfl, rfl⟩ | cases built

/-- A nonterminal that is written like ε is no stack symbol. -/
theorem epsilon_not_mem_of_toPDA {bound : Option Int}
    (run : ((c.toPDA bound).runFrom a).1 = .ok m) : Symbol.epsilon ∉ c.nonterminals := by
  intro declared
  have refused : StackAlphabet.ofSet c.stackSymbols = .error .epsilonInStackAlphabet := by
    have member : Symbol.epsilon ∈ c.stackSymbols :=
      mem_stackSymbols.mpr (.inr ⟨.nonterminal Symbol.epsilon, declared, rfl⟩)
    rw [StackAlphabet.ofSet, dif_neg fun empty => SortedSet.not_mem_empty _ (empty ▸ member),
      dif_pos member]
  have fails : c.drawDiagram.Ensures a (fun _ _ => False) fun _ => True := by
    unfold drawDiagram
    rw [refused]
    exact .bind .draw fun _ _ _ _ => .bind (expansionRules_ensures _) fun _ _ _ _ =>
      .bind (.check_error (P := fun _ _ => False) trivial) fun _ _ _ impossible => impossible.elim
  rw [toPDA_eq, Building.runFrom_bind] at run
  cases drawn : c.drawDiagram.runFrom a with
  | mk r b =>
      cases r with
      | ok d => exact (fails.of_ok drawn).2
      | error e =>
          rw [drawn] at run
          cases run

/-- What the relaxed grammar spells is accepted by an automaton with some bound. -/
theorem exists_accepts (proper : Symbol.epsilon ∉ c.nonterminals)
    (covered : ∀ x ∈ w, x ∈ c.alphabet)
    (reads : ∀ {roles : State → Role → Prop} {m : PDA}, c.Realizes roles m.toStackDiagram →
      ∃ k, m.HasRun k w) :
    ∃ (k : Nat) (m : PDA), ((c.toPDA (some k)).runFrom {}).1 = .ok m ∧
      m.accepts (String.ofList w) = .ok true := by
  obtain ⟨d, b, run, closed, input, roles, realizes⟩ :=
    (drawDiagram_realizes (a := {}) proper).ok_of_endless rfl
  obtain ⟨k, has⟩ := reads (m := ⟨d, closed, 0⟩) realizes
  refine ⟨k, ⟨d, closed, k⟩, toPDA_run d closed k run, PDA.accepts_iff.mpr ?_⟩
  rw [String.toList_ofList]
  exact ⟨input ▸ covered, realizes.hasRun realizes has⟩

/-- With a start nonterminal that is written like the bottom marker a run can end at once. -/
theorem Realizes.hasRun_nil (realizes : c.Realizes roles m.toStackDiagram)
    (proper : Symbol.epsilon ∉ c.nonterminals) (same : c.start = Symbol.bottom) :
    ∃ k, m.HasRun k [] := by
  obtain ⟨p, loop, waits⟩ := realizes.waits_entering proper
  obtain ⟨q, finish, move⟩ := realizes.move_ok loop .leave (.top (s := [Symbol.bottom]))
  rw [same] at waits
  exact ⟨2 + 1, _, (realizes.accepting finish).mpr rfl, .wait waits (.done (.move move .stay))⟩

/-! ### Words of a grammar that is read from rules -/

theorem head_isCapital (plain : c.grammar.Plain) {name : String} {output : Form}
    (produced : output ∈ c.grammar.outputs name) :
    ∃ a, Element.IsCapital a ∧ name = Symbol.ofChar a :=
  plain.head name (c.grammar.head_mem _ (Grammar.mem_outputs.mp produced))

theorem start_isCapital (plain : c.grammar.Plain) (generated : c.Generates w) :
    (Element.nonterminal c.start).Plain := by
  cases Grammar.derives_iff_spells.mp generated with
  | nonterminal produced _ => exact head_isCapital plain produced

/-- The letters of generated words are no capitals. -/
theorem not_isCapital_of_generates (plain : c.grammar.Plain) (generated : c.Generates w)
    {a : Char} (member : a ∈ w) : ¬ Element.IsCapital a := by
  have element : Element.terminal a ∈ (Form.ofWord w).elements := List.mem_map.mpr ⟨a, member, rfl⟩
  rcases arises_of_derives generated _ element with start | ⟨p, production, inside⟩
  · cases start
  · exact plain.output p production _ inside

/-- The characters of a form that passes for a word are letters of the alphabet. -/
theorem mem_alphabet_of_passes (derived : c.grammar.Derives c.origin f) (passes : c.Passes f) :
    ∀ x ∈ f.text.toList, x ∈ c.alphabet := by
  intro x member
  obtain ⟨e, element, inside⟩ := Form.mem_toList_text.mp member
  cases e with
  | terminal a =>
      obtain rfl : x = a := by simpa [Element.text, Symbol.ofChar] using inside
      exact (arises_of_derives derived _ element).uses
  | nonterminal v =>
      obtain ⟨a, letter, rfl⟩ := passes v (List.mem_filterMap.mpr ⟨_, element, rfl⟩)
      obtain rfl : x = a := by simpa [Element.text, Symbol.ofChar] using inside
      exact letter

/-- If a form passes for a word that is generated, it is that word. -/
theorem isComplete_of_generates (plain : c.grammar.Plain)
    (derived : c.grammar.Derives c.origin f) (passes : c.Passes f)
    (generated : c.Generates f.text.toList) : f.isComplete = true := by
  refine isComplete_of_passes passes fun a _ member => ?_
  have capital : (Element.nonterminal (Symbol.ofChar a)).Plain := by
    rcases arises_of_derives derived _ member with same | ⟨p, production, inside⟩
    · rw [same]
      exact start_isCapital plain generated
    · exact plain.output p production _ inside
  obtain ⟨b, capital, same⟩ := capital
  obtain rfl := Symbol.ofChar_injective same
  have inside : a ∈ f.text.toList :=
    Form.mem_toList_text.mpr ⟨_, member, by simp [Element.text, Symbol.ofChar]⟩
  exact not_isCapital_of_generates plain generated inside capital

/-! ### Soundness -/

/-- No automaton of a grammar, whatever the allocator and the bound, accepts a word that is not
    generated. -/
def CompilesSoundly (c : CFG) : Prop :=
  ∀ (a : Allocator) (bound : Option Int) (m : PDA) (word : String),
    ((c.toPDA bound).runFrom a).1 = .ok m → m.accepts word = .ok true → c.Generates word.toList

theorem compilesSoundly_of_unmistakable (plain : c.grammar.Plain)
    (marked : c.start ≠ Symbol.bottom) (clear : c.Unmistakable) : c.CompilesSoundly := by
  intro a bound m word run accepted
  have proper := epsilon_not_mem_of_toPDA run
  obtain ⟨input, ⟨_, realizes⟩, _⟩ := toPDA_of_ok proper run
  obtain ⟨covered, has⟩ := PDA.accepts_iff.mp accepted
  rw [input] at covered
  exact clear.generates (realizes.spells_of_hasRun ⟨plain, proper, marked⟩ has fun x member =>
    Alphabet.ne_epsilon (covered x member))

theorem CompilesSoundly.start_ne_bottom (sound : c.CompilesSoundly) (plain : c.grammar.Plain)
    (proper : Symbol.epsilon ∉ c.nonterminals) : c.start ≠ Symbol.bottom := by
  intro same
  obtain ⟨k, m, run, accepted⟩ := exists_accepts (w := []) proper (by simp)
    fun realizes => realizes.hasRun_nil proper same
  obtain ⟨a, capital, letter⟩ := start_isCapital plain (sound _ _ _ _ run accepted)
  exact Element.ofChar_ne_bottom capital (letter.symm.trans same)

theorem CompilesSoundly.unmistakable (sound : c.CompilesSoundly) (plain : c.grammar.Plain)
    (proper : Symbol.epsilon ∉ c.nonterminals) : c.Unmistakable := by
  intro f derived passes
  have spelled : c.relaxed.Spells c.origin.elements f.text.toList :=
    (derives_relaxed derived).spells (spells_relaxed_of_passes passes)
  obtain ⟨k, m, run, accepted⟩ := exists_accepts proper (mem_alphabet_of_passes derived passes)
    fun realizes => realizes.hasRun_of_spells proper spelled
  have generated := sound _ _ _ _ run accepted
  rw [String.toList_ofList] at generated
  exact isComplete_of_generates plain derived passes generated

/-- For rules that can be read and names that are declared as one likes, the compiled automata
    accept nothing but generated words exactly if there are none, as ε is declared, or if the start
    nonterminal is not written like the bottom marker and no derived form passes for a word before
    it is one. So it is where no name is a letter of the alphabet. -/
theorem compilesSoundly_iff {rules : List String} (read : Grammar.ofRules rules = .ok g)
    (built : ofParts names A g start = .ok c) :
    (c.CompilesSoundly ↔
      Symbol.epsilon ∈ names ∨ start ≠ Symbol.bottom ∧ c.Unmistakable) ∧
    ((∀ v ∈ names, v ∉ A.symbols) → c.Unmistakable) := by
  obtain ⟨rfl, rfl, rfl, rfl⟩ := ofParts_spec built
  have plain := Grammar.plain_of_ofRules read
  refine ⟨⟨fun sound => ?_, ?_⟩, unmistakable_of_apart⟩
  · by_cases proper : Symbol.epsilon ∈ c.nonterminals
    · exact .inl proper
    · exact .inr ⟨sound.start_ne_bottom plain proper, sound.unmistakable plain proper⟩
  · rintro (declared | ⟨marked, clear⟩)
    · exact fun a bound m word run _ => absurd declared (epsilon_not_mem_of_toPDA run)
    · exact compilesSoundly_of_unmistakable plain marked clear

/-- A name that is a letter does no harm where no production leads to it. -/
theorem compilesSoundly_iff_unused :
    let A : Alphabet := ⟨.ofList ['a', 'b'], by decide, by decide⟩
    ∃ g c, Grammar.ofRules ["S -> aSb | ε"] = .ok g ∧
      ofParts (.ofList ["S", "a"]) A g "S" = .ok c ∧ "a" ∈ A.symbols ∧ c.CompilesSoundly := by
  intro A
  obtain ⟨g, read, shape⟩ : ∃ g, Grammar.ofRules ["S -> aSb | ε"] = .ok g ∧
      (ofParts (.ofList ["S", "a"]) A g "S").toOption.any (fun c =>
        decide (∀ p ∈ c.grammar.productions.toList, ∀ v ∈ p.output.nonterminals, v = "S")) = true :=
    exists_ok_of_any (by decide +kernel)
  obtain ⟨c, built, only⟩ := exists_ok_of_any shape
  have unmistakable : c.Unmistakable := by
    obtain ⟨-, alphabet, -, start⟩ := ofParts_spec built
    refine fun f derived passes => isComplete_of_passes passes fun a letter member => ?_
    have name : Symbol.ofChar a = "S" := by
      rcases arises_of_derives derived _ member with same | ⟨p, production, inside⟩
      · exact (Element.nonterminal.inj same).trans start
      · exact only p production _ (List.mem_filterMap.mpr ⟨_, inside, rfl⟩)
    obtain rfl : a = 'S' := Symbol.ofChar_injective name
    rw [alphabet] at letter
    exact absurd letter (by decide)
  exact ⟨g, c, read, built, by decide,
    (compilesSoundly_iff read built).1.mpr (.inr ⟨by decide, unmistakable⟩)⟩

/-- The letter `S` is read off the start nonterminal, although only `a` is derived. -/
theorem not_compilesSoundly_letter :
    let A : Alphabet := ⟨.ofList ['S', 'a'], by decide, by decide⟩
    ∃ g c m, Grammar.ofRules ["S -> a"] = .ok g ∧ ofParts (.singleton "S") A g "S" = .ok c ∧
      ((c.toPDA none).runFrom {}).1 = .ok m ∧ m.accepts "S" = .ok true ∧
        ¬ c.Generates "S".toList := by
  intro A
  obtain ⟨g, read, shape⟩ : ∃ g, Grammar.ofRules ["S -> a"] = .ok g ∧
      (ofParts (.singleton "S") A g "S").toOption.any (fun c =>
        decide ((((c.toPDA none).runFrom {}).1.toOption.any fun m =>
          decide (m.accepts "S" = .ok true)) = true)) = true :=
    exists_ok_of_any (by decide +kernel)
  obtain ⟨c, built, shape⟩ := exists_ok_of_any shape
  obtain ⟨m, run, accepted⟩ := exists_ok_of_any shape
  refine ⟨g, c, m, read, built, run, accepted, fun generated => ?_⟩
  obtain ⟨-, -, rfl, -⟩ := ofParts_spec built
  refine not_isCapital_of_generates (Grammar.plain_of_ofRules read) generated
    (a := 'S') (by decide) ?_
  unfold Element.IsCapital
  decide

end Automata.CFG
