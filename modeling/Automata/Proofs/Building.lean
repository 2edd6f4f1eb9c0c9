import Automata.Proofs.Allocator

/-! # What constructions promise

A construction that draws states is described by what it yields and by how it may fail. An
allocator with a largest number may always run out of names; that failure needs no mention. Beside
that stands how many states a construction takes, which says when the failure comes.
-/

namespace Automata.Building

variable {α β : Type} {a c : Allocator}

@[simp] theorem runFrom_pure (x : α) : (pure x : Building α).runFrom a = (.ok x, a) := rfl

@[simp] theorem runFrom_check (r : Except Error α) : (check r).runFrom a = (r, a) := rfl

theorem runFrom_draw : draw.runFrom a = a.take := rfl

theorem runFrom_bind (b : Building α) (f : α → Building β) :
    (b >>= f).runFrom a =
      match b.runFrom a with
      | (.ok x, c) => (f x).runFrom c
      | (.error e, c) => (.error e, c) := by
  simp only [runFrom, ExceptT.run_bind, StateT.run_bind]
  rcases b.run.run a with ⟨_ | _, _⟩ <;> rfl

/-- Run from an allocator, a construction yields a value as promised together with a later
    allocator, or it fails in a permitted way. -/
def Ensures (b : Building α) (a : Allocator) (P : α → Allocator → Prop) (E : Error → Prop) :
    Prop :=
  match b.runFrom a with
  | (.ok x, c) => a.Before c ∧ P x c
  | (.error e, c) => a.Before c ∧ (E e ∨ e = .numbersExhausted ∧ a.largest ≠ none)

namespace Ensures

variable {b : Building α} {f : α → Building β} {P P' : α → Allocator → Prop}
  {Q : β → Allocator → Prop} {E E' : Error → Prop}

theorem pure {x : α} (h : P x a) : Ensures (Pure.pure x) a P E := ⟨.refl a, h⟩

theorem throw {e : Error} (h : E e) : Ensures (MonadExcept.throw e) a P E := ⟨.refl a, .inl h⟩

theorem check_ok {x : α} (h : P x a) : Ensures (check (.ok x)) a P E := ⟨.refl a, h⟩

theorem check_error {e : Error} (h : E e) : Ensures (check (.error e)) a P E := ⟨.refl a, .inl h⟩

/-- A construction whose only draw is the first thing that can fail. -/
theorem of_take (ok : ∀ p c, a.take = (.ok p, c) → ∃ x, b.runFrom a = (.ok x, c) ∧ P x c)
    (error : ∀ e c, a.take = (.error e, c) → b.runFrom a = (.error e, c)) : Ensures b a P E := by
  have later := a.before_take
  unfold Ensures
  cases taken : a.take with
  | mk r c =>
      rw [taken] at later
      cases r with
      | ok p =>
          obtain ⟨x, run, holds⟩ := ok p c taken
          rw [run]
          exact ⟨later, holds⟩
      | error e =>
          rw [error e c taken]
          exact ⟨later, .inr (Allocator.take_error taken)⟩

theorem draw : Ensures draw a (fun p c => a.Drawn c p ∧ p ∉ a.reserved) E :=
  .of_take (fun p _ taken => ⟨p, taken, Allocator.take_ok taken⟩) fun _ _ taken => taken

theorem bind (h : Ensures b a P E)
    (k : ∀ x c, a.Before c → P x c → Ensures (f x) c Q E) : Ensures (b >>= f) a Q E := by
  unfold Ensures at h ⊢
  rw [runFrom_bind]
  cases hb : b.runFrom a with
  | mk r c =>
      rw [hb] at h
      cases r with
      | error e => exact h
      | ok x =>
          have next := k x c h.1 h.2
          unfold Ensures at next
          dsimp only
          cases hf : (f x).runFrom c with
          | mk s d =>
              rw [hf] at next
              cases s with
              | ok y => exact ⟨h.1.trans next.1, next.2⟩
              | error e => exact ⟨h.1.trans next.1, h.1.largest_eq ▸ next.2⟩

theorem drawPair : Ensures drawPair a (fun p c => a.Drawn c p.1 ∧ a.Drawn c p.2 ∧
    a.Offers p.1 ∧ a.Offers p.2 ∧ p.1 ≠ p.2) E := by
  refine bind draw fun p c ac first => bind draw fun q d cd second => pure ?_
  refine ⟨first.1.right cd, second.1.left ac, first.1.offers first.2,
    ac.offers (second.1.offers second.2), fun same => ?_⟩
  obtain rfl : p = q := same
  exact (first.1.past ac).not_drawn second.1

theorem drawMany (k : Nat) :
    (drawMany k).Ensures a (fun ps c => ps.length = k ∧ ps.Nodup ∧
      ∀ p ∈ ps, a.Drawn c p ∧ a.Offers p) E := by
  induction k generalizing a with
  | zero => exact pure ⟨rfl, .nil, by simp⟩
  | succ k ih =>
      refine bind draw fun p c ac drawn => bind ih fun ps d cd others => pure ?_
      obtain ⟨length, nodup, all⟩ := others
      refine ⟨by simp [length], List.nodup_cons.mpr ⟨fun member => ?_, nodup⟩, ?_⟩
      · exact (drawn.1.past ac).not_offers (all p member).2
      · intro q member
        rcases List.mem_cons.mp member with rfl | later
        · exact ⟨drawn.1.right cd, drawn.1.offers drawn.2⟩
        · exact ⟨(all q later).1.left ac, ac.offers (all q later).2⟩

theorem weaken (h : Ensures b a P E) (hP : ∀ x c, a.Before c → P x c → P' x c)
    (hE : ∀ e, E e → E' e) : Ensures b a P' E' := by
  unfold Ensures at h ⊢
  split at h
  · exact ⟨h.1, hP _ _ h.1 h.2⟩
  · exact ⟨h.1, h.2.imp_left (hE _)⟩

theorem of_ok (h : Ensures b a P E) {x : α} (run : b.runFrom a = (.ok x, c)) :
    a.Before c ∧ P x c := by
  unfold Ensures at h
  rwa [run] at h

theorem of_error (h : Ensures b a P E) {e : Error} (run : b.runFrom a = (.error e, c)) :
    E e ∨ e = .numbersExhausted ∧ a.largest ≠ none := by
  unfold Ensures at h
  rw [run] at h
  exact h.2

/-- A construction that may fail in no other way succeeds unless the numbers run out. -/
theorem ok_or_exhausted (h : Ensures b a P fun _ => False) :
    (∃ x c, b.runFrom a = (.ok x, c) ∧ P x c) ∨
      (a.largest ≠ none ∧ ∃ c, b.runFrom a = (.error .numbersExhausted, c)) := by
  cases run : b.runFrom a with
  | mk r c =>
      cases r with
      | ok x => exact .inl ⟨x, c, rfl, (h.of_ok run).2⟩
      | error e =>
          obtain ⟨rfl, limited⟩ := (h.of_error run).resolve_left id
          exact .inr ⟨limited, c, rfl⟩

theorem ok_of_endless (h : Ensures b a P fun _ => False) (endless : a.largest = none) :
    ∃ x c, b.runFrom a = (.ok x, c) ∧ P x c :=
  h.ok_or_exhausted.resolve_right fun limited => limited.1 endless

end Ensures

/-! ### How many states are taken -/

theorem runFrom_drawMany {ps : List State} (h : a.HandsOut ps c) :
    (drawMany ps.length).runFrom a = (.ok ps, c) := by
  induction h with
  | nil => rfl
  | cons taken _ ih =>
      rw [List.length_cons, drawMany, runFrom_bind, runFrom_draw, taken]
      dsimp only
      rw [runFrom_bind, ih]
      rfl

theorem nodup_of_handsOut {ps : List State} (h : a.HandsOut ps c) : ps.Nodup :=
  ((Ensures.drawMany (E := fun _ => False) ps.length).of_ok (runFrom_drawMany h)).2.2.1

/-- A construction hands out a given number of states on the way to a value, and it runs out of
    numbers only if an allocator cannot supply as many. -/
def Takes (b : Building α) (a : Allocator) (k : Nat) (P : α → List State → Prop) : Prop :=
  match b.runFrom a with
  | (.ok x, c) => ∃ ps, ps.length = k ∧ a.HandsOut ps c ∧ P x ps
  | (.error e, _) => e = .numbersExhausted → ¬ a.Supplies k

namespace Takes

variable {b : Building α} {f : α → Building β} {j k : Nat} {P P' : α → List State → Prop}
  {Q : β → List State → Prop}

theorem pure {x : α} (h : P x []) : Takes (Pure.pure x) a 0 P := ⟨[], rfl, .nil, h⟩

theorem check_error {e : Error} (other : e ≠ .numbersExhausted) :
    Takes (Building.check (.error e)) a k P := fun same => absurd same other

theorem check {r : Except Error α} (ok : ∀ x, r = .ok x → P x [])
    (other : r ≠ .error .numbersExhausted) : Takes (check r) a 0 P := by
  unfold Takes
  rw [runFrom_check]
  cases r with
  | ok x => exact ⟨[], rfl, .nil, ok x rfl⟩
  | error e => exact fun same => absurd (congrArg Except.error same) other

theorem draw : Takes draw a 1 (fun p ps => ps = [p]) := by
  unfold Takes
  rw [runFrom_draw]
  cases h : a.take with
  | mk r c =>
      cases r with
      | ok p => exact ⟨[p], rfl, .cons h .nil, rfl⟩
      | error e =>
          rintro - ⟨_, _, length, _ | ⟨taken, _⟩⟩
          · cases length
          · cases taken.symm.trans h

theorem weaken (h : Takes b a k P)
    (hP : ∀ x ps c, a.HandsOut ps c → ps.length = k → P x ps → P' x ps) : Takes b a k P' := by
  unfold Takes at h ⊢
  split at h
  · obtain ⟨ps, length, handed, holds⟩ := h
    exact ⟨ps, length, handed, hP _ ps _ handed length holds⟩
  · exact h

/-- What is taken one after the other adds up. -/
theorem bind (h : Takes b a j P)
    (next : ∀ x c ps, a.HandsOut ps c → P x ps → Takes (f x) c k fun y qs => Q y (ps ++ qs)) :
    Takes (b >>= f) a (j + k) Q := by
  unfold Takes at h ⊢
  rw [runFrom_bind]
  cases hb : b.runFrom a with
  | mk r c =>
      rw [hb] at h
      cases r with
      | error e => exact fun same enough => h same enough.left
      | ok x =>
          obtain ⟨ps, rfl, first, holds⟩ := h
          have next := next x c ps first holds
          unfold Takes at next
          dsimp only
          cases hf : (f x).runFrom c with
          | mk s d =>
              rw [hf] at next
              cases s with
              | error e => exact fun same enough => next same (enough.after first)
              | ok y =>
                  obtain ⟨qs, rfl, second, holds⟩ := next
                  exact ⟨ps ++ qs, List.length_append, first.append second, holds⟩

theorem check_bind {r : Except Error α} (other : r ≠ .error .numbersExhausted)
    (next : ∀ x, r = .ok x → Takes (f x) a k Q) : Takes (Building.check r >>= f) a k Q := by
  have first : Takes (Building.check r) a 0 fun x ps => r = .ok x ∧ ps = [] :=
    check (fun x ok => ⟨ok, rfl⟩) other
  rw [← Nat.zero_add k]
  refine first.bind fun x c ps handed ⟨ok, nothing⟩ => ?_
  subst nothing
  cases handed
  exact next x ok

theorem throw_bind {e : Error} (other : e ≠ .numbersExhausted) :
    Takes (throw e >>= f) a k Q := fun same => absurd same other

theorem draw_bind {f : State → Building β}
    (next : ∀ p c, Takes (f p) c k fun y ps => Q y (p :: ps)) :
    Takes (Building.draw >>= f) a (k + 1) Q := by
  rw [Nat.add_comm]
  exact draw.bind fun p c ps _ drawn => drawn ▸ next p c

theorem drawPair_bind {f : State × State → Building β}
    (next : ∀ p q c, Takes (f (p, q)) c k fun y ps => Q y (p :: q :: ps)) :
    Takes (Building.drawPair >>= f) a (k + 2) Q := by
  have both : Building.drawPair >>= f =
      Building.draw >>= fun p => Building.draw >>= fun q => f (p, q) := by
    simp [Building.drawPair]
  rw [both]
  exact draw_bind fun p _ => draw_bind fun q c => next p q c

theorem drawMany (k : Nat) : Takes (drawMany k) a k Eq := by
  induction k generalizing a with
  | zero => exact pure rfl
  | succ k ih =>
      refine draw_bind fun p c => ih.bind fun qs d rs _ others => pure ?_
      rw [others, List.append_nil]

/-- A construction that takes no more states than are supplied does not run out of numbers. -/
theorem ne_numbersExhausted (h : Takes b a k P) (enough : a.Supplies k) :
    (b.runFrom a).1 ≠ .error .numbersExhausted := by
  unfold Takes at h
  intro failure
  cases run : b.runFrom a with
  | mk r c =>
      rw [run] at h failure
      obtain rfl : r = .error .numbersExhausted := failure
      exact h rfl enough

theorem of_ok (h : Takes b a k P) {x : α} (run : b.runFrom a = (.ok x, c)) :
    ∃ ps, ps.length = k ∧ a.HandsOut ps c ∧ P x ps := by
  unfold Takes at h
  rwa [run] at h

/-- A construction yields nothing unless the states that it takes are supplied. -/
theorem supplies (h : Takes b a k P) {x : α} (run : (b.runFrom a).1 = .ok x) : a.Supplies k := by
  obtain ⟨ps, length, handed, _⟩ := h.of_ok (Prod.ext run rfl)
  exact ⟨ps, _, length, handed⟩

section

variable {R : α → Allocator → Prop} (h : Takes b a k P) (ensures : b.Ensures a R fun _ => False)

include h ensures

/-- A construction that may fail in no other way succeeds if the states that it takes are
    supplied. -/
theorem ok_of_supplies (enough : a.Supplies k) : ∃ x c, b.runFrom a = (.ok x, c) ∧ R x c := by
  rcases ensures.ok_or_exhausted with done | ⟨_, c, run⟩
  · exact done
  · exact absurd (congrArg Prod.fst run) (h.ne_numbersExhausted enough)

/-- Where they are not supplied, the numbers run out. -/
theorem exhausted_of_lacking (lacking : ¬ a.Supplies k) :
    ∃ c, b.runFrom a = (.error .numbersExhausted, c) := by
  rcases ensures.ok_or_exhausted with ⟨x, c, run, _⟩ | ⟨_, failure⟩
  · exact absurd (h.supplies (congrArg Prod.fst run)) lacking
  · exact failure

end

end Takes

/-- An allocator has as many states left as can be drawn. -/
theorem supplies_iff {k : Nat} : a.Supplies k ↔ ((drawMany k).runFrom a).1.isOk = true := by
  constructor
  · rintro ⟨ps, c, rfl, handed⟩
    rw [runFrom_drawMany handed]
    rfl
  · intro drawn
    cases result : ((drawMany k).runFrom a).1 with
    | ok ps => exact (Takes.drawMany k).supplies result
    | error e =>
        rw [result] at drawn
        cases drawn

instance (a : Allocator) (k : Nat) : Decidable (a.Supplies k) :=
  decidable_of_iff _ supplies_iff.symm

/-! ### Clashes -/

/-- A construction draws a number of states and fails for a state if what it draws clashes, else it
    succeeds. Where the allocator has fewer states left, the numbers run out. -/
structure Draws (b : Building α) (a : Allocator) (k : Nat) (clashes : List State → Prop) :
    Prop where
  exhausted : ¬ a.Supplies k → (b.runFrom a).1 = .error .numbersExhausted
  refused : ∀ ps c, ps.length = k → a.HandsOut ps c → clashes ps →
    ∃ e, (b.runFrom a).1 = .error e ∧ e.kind = .state
  ok : ∀ ps c, ps.length = k → a.HandsOut ps c → ¬ clashes ps → ∃ x, (b.runFrom a).1 = .ok x

namespace Draws

variable {b : Building α} {f : α → Building β} {k : Nat} {clashes : List State → Prop}

/-- A construction that can only run out of numbers never clashes. -/
theorem of_ensures {P : α → Allocator → Prop} {Q : α → List State → Prop}
    (ensures : b.Ensures a P fun _ => False) (takes : b.Takes a k Q) :
    b.Draws a k fun _ => False where
  exhausted lacking := by
    obtain ⟨c, run⟩ := takes.exhausted_of_lacking ensures lacking
    rw [run]
  refused _ _ _ _ impossible := impossible.elim
  ok ps c length handed _ := by
    obtain ⟨x, d, run, _⟩ := takes.ok_of_supplies ensures ⟨ps, c, length, handed⟩
    exact ⟨x, congrArg Prod.fst run⟩

/-- A construction that never clashes yields a value made of the states that are handed out. -/
theorem run_of_handsOut {P : α → List State → Prop} {ps : List State}
    (draws : b.Draws a k fun _ => False) (takes : b.Takes a k P) (length : ps.length = k)
    (handed : a.HandsOut ps c) : ∃ x, b.runFrom a = (.ok x, c) ∧ P x ps := by
  obtain ⟨x, result⟩ := draws.ok ps c length handed id
  have run : b.runFrom a = (.ok x, (b.runFrom a).2) := Prod.ext result rfl
  obtain ⟨qs, length', handed', holds⟩ := takes.of_ok run
  obtain ⟨rfl, same⟩ := handed.unique handed' (length.trans length'.symm)
  rw [← same] at run
  exact ⟨x, run, holds⟩

theorem check_ok {x : α} (fine : ¬ clashes []) : (check (.ok x)).Draws a 0 clashes where
  exhausted lacking := absurd ⟨[], a, rfl, .nil⟩ lacking
  refused ps _ length _ clash := by
    rw [List.eq_nil_of_length_eq_zero length] at clash
    exact absurd clash fine
  ok _ _ _ _ _ := ⟨x, rfl⟩

theorem throw_bind {e : Error} (kind : e.kind = .state) (clash : clashes []) :
    (throw e >>= f).Draws a 0 clashes where
  exhausted lacking := absurd ⟨[], a, rfl, .nil⟩ lacking
  refused _ _ _ _ _ := ⟨e, rfl, kind⟩
  ok ps _ length _ fine := by
    rw [List.eq_nil_of_length_eq_zero length] at fine
    exact absurd clash fine

theorem draw_bind {f : State → Building β}
    (next : ∀ p c, a.take = (.ok p, c) → (f p).Draws c k fun ps => clashes (p :: ps)) :
    (Building.draw >>= f).Draws a (k + 1) clashes := by
  have run {p : State} {c : Allocator} (taken : a.take = (.ok p, c)) :
      (Building.draw >>= f).runFrom a = (f p).runFrom c := by
    rw [runFrom_bind, runFrom_draw, taken]
  refine ⟨fun lacking => ?_, fun ps d length handed clash => ?_, fun ps d length handed fine => ?_⟩
  · cases taken : a.take with
    | mk r c =>
        cases r with
        | error e =>
            obtain ⟨rfl, _⟩ := Allocator.take_error taken
            rw [runFrom_bind, runFrom_draw, taken]
        | ok p =>
            rw [run taken]
            refine (next p c taken).exhausted fun enough => lacking ?_
            obtain ⟨ps, d, length, handed⟩ := enough
            exact ⟨p :: ps, d, congrArg Nat.succ length, .cons taken handed⟩
  · cases handed with
    | nil => cases length
    | cons taken rest =>
        rw [run taken]
        exact (next _ _ taken).refused _ _ (Nat.succ.inj length) rest clash
  · cases handed with
    | nil => cases length
    | cons taken rest =>
        rw [run taken]
        exact (next _ _ taken).ok _ _ (Nat.succ.inj length) rest fine

/-- The two states of a pair are different. -/
theorem drawPair_bind {f : State × State → Building β}
    (next : ∀ p q c, p ≠ q → (f (p, q)).Draws c k fun ps => clashes (p :: q :: ps)) :
    (Building.drawPair >>= f).Draws a (k + 2) clashes := by
  have both : Building.drawPair >>= f =
      Building.draw >>= fun p => Building.draw >>= fun q => f (p, q) := by
    simp [Building.drawPair]
  rw [both]
  refine draw_bind fun p c first => draw_bind fun q d second => next p q d ?_
  have handed : a.HandsOut [p, q] d := .cons first (.cons second .nil)
  simpa using nodup_of_handsOut handed

/-- A check that succeeds in the first place does not matter. -/
theorem check_bind {x : α} {f : α → Building β} (next : (f x).Draws a k clashes) :
    (Building.check (.ok x) >>= f).Draws a k clashes := next

/-- Steps that never fail may follow. -/
theorem bind_ok {f : α → Building β} (h : b.Draws a k clashes)
    (next : ∀ x c, b.runFrom a = (.ok x, c) → ∃ y, ((f x).runFrom c).1 = .ok y) :
    (b >>= f).Draws a k clashes := by
  have error {e : Error} (failure : (b.runFrom a).1 = .error e) :
      ((b >>= f).runFrom a).1 = .error e := by
    rw [runFrom_bind]
    cases run : b.runFrom a with
    | mk r c =>
        obtain rfl : r = .error e := by simpa [run] using failure
        rfl
  refine ⟨fun lacking => error (h.exhausted lacking), fun ps c length handed clash => ?_,
    fun ps c length handed fine => ?_⟩
  · obtain ⟨e, failure, kind⟩ := h.refused ps c length handed clash
    exact ⟨e, error failure, kind⟩
  · obtain ⟨x, result⟩ := h.ok ps c length handed fine
    rw [runFrom_bind]
    cases run : b.runFrom a with
    | mk r d =>
        obtain rfl : r = .ok x := by simpa [run] using result
        exact next x d run

end Draws

/-- An endless allocator always has enough states left. -/
theorem supplies_of_endless (endless : a.largest = none) (k : Nat) : a.Supplies k := by
  obtain ⟨ps, c, run, _⟩ := (Ensures.drawMany (a := a) k).ok_of_endless endless
  exact (Takes.drawMany k).supplies (congrArg Prod.fst run)

end Automata.Building
