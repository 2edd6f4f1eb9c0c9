import Automata.NFA.OfRegex
import Automata.Proofs.NFA.Extend
import Automata.Proofs.NFA.Fragment
import Automata.Proofs.NFA.Rename
import Automata.Proofs.NFA.Simplify

/-! # Compiled expressions accept what they match

The automaton of an expression consists of states drawn for it, so that the automata of different
parts are apart whatever the allocator. It exists exactly when the expression is over the alphabet,
and its language is that of the expression.
-/

open scoped Computability

namespace Automata.NFA

variable {A : Alphabet} {a : Allocator} {m n front : NFA} {r : Regex} {parts : List Regex}
  {p : State} {c : Allocator}

theorem Apart.of_past (past : ∀ p ∈ m.states, a.Past p) (drawn : ∀ p ∈ n.states, a.Drawn c p) :
    m.Apart n :=
  fun p old new => (past p old).not_drawn (drawn p new)

/-- What the construction for an expression promises. -/
def Compiles (A : Alphabet) (a : Allocator) (r : Regex) : Prop :=
  (ofRegex A r).Ensures a
    (fun n c => r.IsOver A ∧ n.alphabet = A ∧ (∀ p ∈ n.states, a.Drawn c p) ∧
      n.language = r.language A)
    (fun e => e.kind = .alphabet ∧ ¬ r.IsOver A)

/-- What the construction for further factors promises. -/
def Continues (A : Alphabet) (a : Allocator) (front : NFA) (parts : List Regex) : Prop :=
  (ofFactors A front parts).Ensures a
    (fun n c => Regex.AreOver A parts ∧ n.alphabet = A ∧
      (∀ p ∈ n.states, p ∈ front.states ∨ a.Drawn c p) ∧
      n.language = front.language * (Regex.concat parts).language A)
    (fun e => e.kind = .alphabet ∧ ¬ Regex.AreOver A parts)

/-- What the construction for alternatives promises. -/
def AllCompile (A : Alphabet) (a : Allocator) (parts : List Regex) : Prop :=
  (ofAlternatives A parts).Ensures a
    (fun l c => Regex.AreOver A parts ∧ (∀ n ∈ l, n.alphabet = A) ∧ l.Pairwise Apart ∧
      (∀ n ∈ l, ∀ p ∈ n.states, a.Drawn c p) ∧ l.map language = parts.map (Regex.language A))
    (fun e => e.kind = .alphabet ∧ ¬ Regex.AreOver A parts)

theorem single_compiles {accepts : Bool} (run : ofRegex A r = single (.ok A) accepts)
    (covered : r.IsOver A) (language : r.language A = if accepts then 1 else 0) :
    Compiles A a r := by
  unfold Compiles
  rw [run]
  refine single_ensures.weaken (fun n c _ h => ?_) (fun _ impossible => impossible.elim)
    (E := fun _ => False)
  exact ⟨covered, h.1, h.2.1, h.2.2.trans language.symm⟩

theorem forAnyOf_compiles {symbols : List Symbol} (run : ofRegex A r = forAnyOf A symbols)
    (covered : r.IsOver A ↔ ∀ s ∈ symbols, s ∈ A.symbols)
    (language : r.language A = Regex.letters (Symbol.ofChar · ∈ symbols)) : Compiles A a r := by
  unfold Compiles
  rw [run]
  refine forAnyOf_ensures.weaken (fun n c _ h => ?_) (fun e h => ?_)
  · exact ⟨covered.mpr h.1, h.2.1, h.2.2.1, h.2.2.2.trans language.symm⟩
  · exact ⟨h.1, fun isOver => h.2 (covered.mp isOver)⟩

/-! ### Concatenations -/

theorem continues_nil (alphabet : front.alphabet = A) : Continues A a front [] := by
  unfold Continues
  rw [ofFactors]
  refine .pure ⟨trivial, alphabet, fun p member => .inl member, ?_⟩
  rw [Regex.language_concat_nil, mul_one]

theorem continues_cons (alphabet : front.alphabet = A) (past : ∀ p ∈ front.states, a.Past p)
    (first : Compiles A a r)
    (others : ∀ {c joined}, joined.alphabet = A → (∀ p ∈ joined.states, c.Past p) →
      Continues A c joined parts) :
    Continues A a front (r :: parts) := by
  unfold Continues
  rw [ofFactors]
  refine (first.weaken (fun _ _ _ h => h) fun e h => ⟨h.1, fun covered => h.2 covered.1⟩).bind
    fun next c ac ⟨covered, agrees, drawn, matched⟩ => ?_
  have alphabets : ∀ n ∈ [front, next], n.alphabet = A := by simp [alphabet, agrees]
  have apart : [front, next].Pairwise Apart := by
    simpa using Apart.of_past past drawn
  obtain ⟨joined, run, agrees, states, product⟩ := concatenate_spec alphabets apart
  have states : ∀ p, p ∈ joined.states ↔ p ∈ front.states ∨ p ∈ next.states := by
    simp [states, mem_allStates]
  have product : joined.language = front.language * r.language A := by
    simp [product, matched]
  rw [run]
  refine .bind (.check_ok (P := fun n d => n = joined ∧ d = c) ⟨rfl, rfl⟩) ?_
  rintro n d - ⟨rfl, rfl⟩
  refine (others agrees fun p member => ?_).weaken (fun n d cd h => ?_) fun e h => ?_
  · rcases (states p).mp member with old | new
    · exact (past p old).mono ac
    · exact (drawn p new).past ac
  · obtain ⟨areOver, alphabet, inside, language⟩ := h
    refine ⟨⟨covered, areOver⟩, alphabet, fun p member => ?_, ?_⟩
    · rcases inside p member with old | later
      · exact ((states p).mp old).imp_right fun new => (drawn p new).right cd
      · exact .inr (later.left ac)
    · rw [language, product, mul_assoc, Regex.language_concat_cons]
  · exact ⟨h.1, fun covered => h.2 covered.2⟩

theorem concat_compiles (first : Compiles A a r)
    (others : ∀ {c front}, front.alphabet = A → (∀ p ∈ front.states, c.Past p) →
      Continues A c front parts) :
    Compiles A a (.concat (r :: parts)) := by
  unfold Compiles
  rw [ofRegex]
  refine (first.weaken (fun _ _ _ h => h) fun e h => ⟨h.1, fun covered => h.2 covered.1⟩).bind
    fun front c ac ⟨covered, alphabet, drawn, matched⟩ => ?_
  refine (others alphabet fun p member => (drawn p member).past ac).weaken
    (fun n d cd h => ?_) fun e h => ?_
  · obtain ⟨areOver, alphabet, inside, language⟩ := h
    refine ⟨⟨covered, areOver⟩, alphabet, fun p member => ?_, ?_⟩
    · rcases inside p member with old | later
      · exact (drawn p old).right cd
      · exact later.left ac
    · rw [language, matched, Regex.language_concat_cons]
  · exact ⟨h.1, fun covered => h.2 covered.2⟩

/-! ### Unions -/

theorem allCompile_nil : AllCompile A a [] := by
  unfold AllCompile
  rw [ofAlternatives]
  exact .pure ⟨trivial, by simp, .nil, by simp, rfl⟩

theorem allCompile_cons (first : Compiles A a r) (others : ∀ {c}, AllCompile A c parts) :
    AllCompile A a (r :: parts) := by
  unfold AllCompile
  rw [ofAlternatives]
  refine (first.weaken (fun _ _ _ h => h) fun e h => ⟨h.1, fun covered => h.2 covered.1⟩).bind
    fun n c ac ⟨covered, alphabet, drawn, matched⟩ => ?_
  refine (others.weaken (fun _ _ _ h => h) fun e h => ⟨h.1, fun covered => h.2 covered.2⟩).bind
    fun l d cd ⟨areOver, alphabets, apart, later, languages⟩ => .pure ?_
  have past : ∀ p ∈ n.states, c.Past p := fun p member => (drawn p member).past ac
  refine ⟨⟨covered, areOver⟩, ?_, ?_, ?_, ?_⟩
  · exact List.forall_mem_cons.mpr ⟨alphabet, alphabets⟩
  · exact List.pairwise_cons.mpr ⟨fun m inside => .of_past past (later m inside), apart⟩
  · exact List.forall_mem_cons.mpr ⟨fun p member => (drawn p member).right cd,
      fun m inside p member => (later m inside p member).left ac⟩
  · rw [List.map_cons, List.map_cons, matched, languages]

/-- The automata of alternatives, at least one, can be united. -/
theorem union_of_allCompile (all : AllCompile A a (r :: parts)) :
    (ofAlternatives A (r :: parts) >>= union).Ensures a
      (fun n c => Regex.AreOver A (r :: parts) ∧ n.alphabet = A ∧ (∀ p ∈ n.states, a.Drawn c p) ∧
        n.language = ((r :: parts).map (Regex.language A)).sum)
      (fun e => e.kind = .alphabet ∧ ¬ Regex.AreOver A (r :: parts)) := by
  refine all.bind fun l c ac ⟨covered, alphabets, apart, drawn, languages⟩ => ?_
  cases l with
  | nil => cases languages
  | cons first others =>
      have fresh : ∀ p, c.Offers p → ∀ n ∈ first :: others, p ∉ n.states :=
        fun p offered n inside member => ((drawn n inside p member).past ac).not_offers offered
      refine (union_ensures alphabets apart fresh).weaken (fun n d cd h => ?_) fun _ h => h
      obtain ⟨alphabet, ⟨start, new, states⟩, sum⟩ := h
      refine ⟨covered, alphabet, fun p member => ?_, sum.trans (congrArg List.sum languages)⟩
      rw [states] at member
      rcases SortedSet.mem_insert.mp member with rfl | member
      · exact new.left ac
      · obtain ⟨m, inside, old⟩ := mem_allStates.mp member
        exact (drawn m inside p old).right cd

theorem union_compiles (all : AllCompile A a (r :: parts)) :
    Compiles A a (.union (r :: parts)) := by
  have run : ofRegex A (.union (r :: parts)) = ofAlternatives A (r :: parts) >>= union := by
    simp [ofRegex, ofAlternatives]
  unfold Compiles
  rw [run, Regex.language_union]
  exact union_of_allCompile all

theorem opt_compiles (all : AllCompile A a [.empty, r]) : Compiles A a (.opt r) := by
  have run : ofRegex A (.opt r) = ofAlternatives A [.empty, r] >>= union := by
    simp [ofRegex, ofAlternatives]
  have covered : Regex.IsOver A (.opt r) ↔ Regex.AreOver A [.empty, r] := by
    simp [Regex.IsOver, Regex.AreOver]
  have language : (Regex.opt r).language A = ([.empty, r].map (Regex.language A)).sum := by
    rw [Regex.language_opt, List.map_cons, List.map_cons, List.map_nil, List.sum_cons,
      List.sum_cons, List.sum_nil, add_zero, Regex.language_empty]
  unfold Compiles
  rw [run, language, covered]
  exact union_of_allCompile all

/-! ### Repetitions -/

theorem star_compiles (body : Compiles A a r) : Compiles A a (.star r) := by
  unfold Compiles
  rw [ofRegex]
  refine body.bind fun n c ac ⟨covered, alphabet, drawn, language⟩ => ?_
  refine star_ensures (fun p offered member => ?_) |>.weaken (fun k d cd h => ?_) fun _ h => h
  · exact ((drawn p member).past ac).not_offers offered
  · obtain ⟨same, ⟨start, fresh, states⟩, star⟩ := h
    refine ⟨covered, same.trans alphabet, fun p member => ?_, ?_⟩
    · rw [states] at member
      rcases SortedSet.mem_insert.mp member with rfl | member
      · exact fresh.left ac
      · exact (drawn p member).right cd
    · rw [star, language, Regex.language_star]

theorem plus_compiles (body : Compiles A a r) : Compiles A a (.plus r) := by
  unfold Compiles
  rw [ofRegex]
  refine body.bind fun once c ac ⟨covered, alphabet, drawn, language⟩ => ?_
  refine clone_ensures.bind fun first d cd ⟨⟨f, iso⟩, copied⟩ => ?_
  have past : ∀ p ∈ once.states, d.Past p := fun p member =>
    ((drawn p member).past ac).mono cd
  refine (star_ensures fun p offered member => (past p member).not_offers offered).bind
    fun rest e de ⟨same, ⟨start, fresh, states⟩, star⟩ => ?_
  have states : ∀ p, p ∈ rest.states ↔ p = start ∨ p ∈ once.states := by simp [states]
  have agree : ∀ n ∈ [first, rest], n.alphabet = A := by
    simp [← iso.alphabet_eq, same, alphabet]
  have apart : first.Apart rest := by
    intro p copy member
    rcases (states p).mp member with rfl | old
    · exact ((copied _ copy).past cd).not_drawn fresh
    · exact ((drawn p old).past ac).not_drawn (copied p copy)
  obtain ⟨n, joined, alphabet, union, product⟩ := concatenate_spec agree (by simpa using apart)
  rw [joined]
  refine .check_ok ⟨covered, alphabet, fun p member => ?_, ?_⟩
  · have member : p ∈ first.states ∨ p ∈ rest.states := by
      simpa [union, mem_allStates] using member
    rcases member.imp_right (states p).mp with copy | rfl | old
    · exact ((copied p copy).right de).left ac
    · exact fresh.left (ac.trans cd)
    · exact (drawn p old).right (cd.trans de)
  · simp [product, star, language_of_isomorphism iso, language]

mutual

/-- The construction for an expression succeeds exactly when the expression is over the alphabet,
    numbers permitting, and the automaton accepts what the expression matches. -/
theorem ofRegex_compiles : ∀ (r : Regex) (a : Allocator), Compiles A a r
  | .empty, _ => single_compiles rfl trivial Regex.language_empty
  | .null, _ => single_compiles rfl trivial Regex.language_null
  | .any, _ => forAnyOf_compiles rfl (by simp [Regex.IsOver])
      (by simp only [Regex.language_any, Alphabet.ofChar_mem_symbols])
  | .lit text, _ => forAnyOf_compiles rfl (by simp [Regex.IsOver, Alphabet.ofChar_mem_symbols])
      (by simp only [Regex.language_lit, Symbol.ofChar_mem_map])
  | .choice _, _ => forAnyOf_compiles rfl Iff.rfl Regex.language_choice
  | .concat [], _ => single_compiles rfl trivial Regex.language_concat_nil
  | .concat (r :: parts), a => concat_compiles (ofRegex_compiles r a) (ofFactors_continues parts)
  | .union [], _ => single_compiles rfl trivial Regex.language_union
  | .union (r :: parts), a =>
      union_compiles (allCompile_cons (ofRegex_compiles r a) (ofAlternatives_compile parts))
  | .star r, a => star_compiles (ofRegex_compiles r a)
  | .plus r, a => plus_compiles (ofRegex_compiles r a)
  | .opt r, _ =>
      opt_compiles (allCompile_cons (single_compiles rfl trivial Regex.language_empty)
        (allCompile_cons (ofRegex_compiles r _) allCompile_nil))

theorem ofFactors_continues : ∀ (parts : List Regex) {a : Allocator} {front : NFA},
    front.alphabet = A → (∀ p ∈ front.states, a.Past p) → Continues A a front parts
  | [], _, _, alphabet, _ => continues_nil alphabet
  | r :: parts, a, _, alphabet, past =>
      continues_cons alphabet past (ofRegex_compiles r a) (ofFactors_continues parts)

theorem ofAlternatives_compile : ∀ (parts : List Regex) {a : Allocator}, AllCompile A a parts
  | [], _ => allCompile_nil
  | r :: parts, a => allCompile_cons (ofRegex_compiles r a) (ofAlternatives_compile parts)

end

/-! ### Patterns -/

/-- A pattern is compiled unless it cannot be read or mentions a character from outside the
    alphabet. With or without its redundant states, the automaton has the language of the
    expression that the pattern stands for. -/
theorem compile_ensures (A : Alphabet) (pattern : String) (simplified : Bool) (a : Allocator) :
    (compile A pattern simplified).Ensures a
      (fun n c => ∃ r, Regex.parse pattern = .ok r ∧ r.IsOver A ∧ n.alphabet = A ∧
        (∀ p ∈ n.states, a.Drawn c p) ∧ n.language = r.language A)
      (fun e => Regex.parse pattern = .error e ∨
        e.kind = .alphabet ∧ ∃ r, Regex.parse pattern = .ok r ∧ ¬ r.IsOver A) := by
  unfold compile
  cases parsed : Regex.parse pattern with
  | error e =>
      exact .bind (.check_error (P := fun _ _ => False) (.inl rfl))
        fun _ _ _ impossible => impossible.elim
  | ok r =>
      refine .bind (.check_ok (P := fun s _ => s = r) rfl) fun s b ab same => ?_
      subst same
      refine ((ofRegex_compiles s b).weaken (fun _ _ _ h => h) fun e h => ?_).bind
        fun n c _ ⟨covered, alphabet, drawn, language⟩ => ?_
      · exact .inr ⟨h.1, s, rfl, h.2⟩
      · cases simplified with
        | false =>
            exact .pure
              ⟨s, rfl, covered, alphabet, fun p member => (drawn p member).left ab, language⟩
        | true =>
            obtain ⟨m, run, simplifies⟩ := n.simplify_spec
            have run : Building.check n.simplify = Building.check (.ok m) := congrArg _ run
            exact run ▸ .check_ok ⟨s, rfl, covered, simplifies.alphabet.trans alphabet,
              fun p member => (drawn p ((simplifies.states p).mp member).1).left ab,
              simplifies.language.trans language⟩

/-- What can be read and is over the alphabet is compiled, if numbers never run out. -/
theorem compile_ok {A : Alphabet} {pattern : String} {r : Regex} {a : Allocator}
    (parsed : Regex.parse pattern = .ok r) (covered : r.IsOver A) (endless : a.largest = none)
    (simplified : Bool) :
    ∃ n c, (compile A pattern simplified).runFrom a = (.ok n, c) ∧ n.alphabet = A ∧
      n.language = r.language A := by
  have spec : (compile A pattern simplified).Ensures a _ fun _ => False :=
    (compile_ensures A pattern simplified a).weaken (fun _ _ _ h => h) fun e failed => by
      rcases failed with unread | ⟨_, s, read, foreign⟩
      · rw [parsed] at unread
        cases unread
      · obtain rfl : r = s := Except.ok.inj (parsed.symm.trans read)
        exact foreign covered
  obtain ⟨n, c, run, s, read, _, same, _, language⟩ := spec.ok_of_endless endless
  obtain rfl : r = s := Except.ok.inj (parsed.symm.trans read)
  exact ⟨n, c, run, same, language⟩

/-- A compiled pattern accepts exactly the words that its expression matches. -/
theorem compile_accepts_iff_matches {A : Alphabet} {pattern : String} {simplified : Bool}
    {a c : Allocator} {n : NFA}
    (run : (compile A pattern simplified).runFrom a = (.ok n, c)) :
    ∃ r, Regex.parse pattern = .ok r ∧ ∀ word : String, (∀ ch ∈ word.toList, ch ∈ A) →
      ∃ b, n.accepts word = .ok b ∧ (b = true ↔ Regex.Matches A r word.toList) := by
  obtain ⟨r, parsed, _, alphabet, _, language⟩ :=
    ((compile_ensures A pattern simplified a).of_ok run).2
  refine ⟨r, parsed, fun word covered => ?_⟩
  obtain ⟨b, answer, decides⟩ :
      ∃ b, n.accepts word = .ok b ∧ (b = true ↔ word.toList ∈ n.language) :=
    accepts_ok (alphabet ▸ covered)
  rw [language] at decides
  exact ⟨b, answer, decides⟩

/-- The pattern `a*b|c` over three letters. -/
theorem compile_accepts_aab :
    let A : Alphabet := ⟨.ofList ['a', 'b', 'c'], by decide, by decide⟩
    ∃ n c, (compile A "a*b|c" true).runFrom {} = (.ok n, c) ∧
      ∃ r, Regex.parse "a*b|c" = .ok r ∧
        ∃ b, n.accepts "aab" = .ok b ∧ (b = true ↔ Regex.Matches A r ['a', 'a', 'b']) := by
  intro A
  have succeeds : ((compile A "a*b|c" true).runFrom {}).1.isOk = true := by decide +kernel
  have letters : ("aab".toList.all fun ch => decide (ch ∈ A)) = true := by decide +kernel
  cases run : (compile A "a*b|c" true).runFrom {} with
  | mk result c =>
      rw [run] at succeeds
      cases result with
      | error e => cases succeeds
      | ok n =>
          obtain ⟨r, parsed, all⟩ := compile_accepts_iff_matches run
          exact ⟨n, c, rfl, r, parsed, all "aab" fun ch member =>
            of_decide_eq_true (List.all_eq_true.mp letters ch member)⟩

end Automata.NFA
