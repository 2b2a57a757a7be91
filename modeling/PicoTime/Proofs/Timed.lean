import PicoTime.Clock

/-!
# Computations That Return

A timed computation takes samples and may stop. What a theorem about one
needs to say is almost always the same thing: from this clock it returns that
value and leaves the clock there. `Returns` says it, and one lemma for each
way to build a computation takes the statement apart, so that no later proof
opens the monad again. `Gives` is for those that do not ask the clock: they end
in the same way from every one.

## Main definitions

* `stop?`: What a check stops with.
* `outcome`: What a computation ends with, and the clock it leaves.
* `Returns`: A computation returns a value and moves the clock.
* `Gives`: A computation needs no clock.

## Theorems

* `bind_eq_ok_iff`, `orFault_eq_ok_iff`: What checks let pass.
* `bind_eq_error_iff`: Where a sequence of checks stops.
* `outcome_bind`: A sequence goes on with what its first part returns.
* `outcome_bind_of_ok`, `outcome_bind_of_error`: The two ways it can go on.
* `returns_pure`: A value is returned at once.
* `returns_bind`: A sequence returns if its parts do, one after the other.
* `Returns.pure`, `Returns.bind`: The same, to put returns together.
* `returns_liftM`, `returns_orFault`: A checked value is returned if the check
  passes.
* `returns_unique`: A computation returns one value at most.
* `Gives.bind`, `Gives.bind_error`: Sequences of parts that need no clock.
* `Gives.of_returns`: What needs no clock returns alike from all.
-/

namespace PicoTime

/-- A sequence of two checks lets pass what both let pass. -/
theorem bind_eq_ok_iff {ε α β : Type} (x : Except ε α) (f : α → Except ε β) (b : β) :
    x >>= f = .ok b ↔ ∃ a, x = .ok a ∧ f a = .ok b := by
  cases x with
  | error e =>
      refine ⟨fun h => ?_, ?_⟩
      · cases h
      · rintro ⟨a, ha, -⟩
        cases ha
  | ok a =>
      refine ⟨fun h => ⟨a, rfl, h⟩, ?_⟩
      rintro ⟨_, ha, h⟩
      cases ha
      exact h

/-- A sequence of two checks stops with what the first of them stops with. -/
theorem bind_eq_error_iff {ε α β : Type} (x : Except ε α) (f : α → Except ε β) (e : ε) :
    x >>= f = .error e ↔ x = .error e ∨ ∃ a, x = .ok a ∧ f a = .error e := by
  cases x with
  | error e' =>
      refine ⟨fun h => Or.inl ?_, ?_⟩
      · cases h
        rfl
      · rintro (h | ⟨a, ha, -⟩)
        · cases h
          rfl
        · cases ha
  | ok a =>
      refine ⟨fun h => Or.inr ⟨a, rfl, h⟩, ?_⟩
      rintro (h | ⟨_, ha, h⟩)
      · cases h
      · cases ha
        exact h

/-- What a check stops with, if it does. -/
def stop? {ε α : Type} : Except ε α → Option ε
  | .ok _ => none
  | .error e => some e

theorem stop?_eq_some_iff {ε α : Type} (x : Except ε α) (e : ε) :
    stop? x = some e ↔ x = .error e := by
  cases x <;> simp only [stop?, Option.some.injEq, Except.error.injEq, reduceCtorEq]

theorem stop?_eq_none_iff {ε α : Type} (x : Except ε α) : stop? x = none ↔ ∃ a, x = .ok a := by
  cases x <;> simp only [stop?, Except.ok.injEq, exists_eq', exists_false, reduceCtorEq]

theorem orFault_eq_ok_iff {ε α : Type} [Coe ε Fault] (e : Except ε α) (a : α) :
    orFault e = .ok a ↔ e = .ok a := by
  cases e <;> simp only [orFault, reduceCtorEq, Except.ok.injEq]

/-- What a computation ends with from a clock, and the clock it leaves. -/
def outcome {α : Type} (x : Timed α) (before : Clock) : Except Fault α × Clock :=
  x.run.run before

/-- From the clock before, the computation returns the value and leaves the
    clock after. -/
def Returns {α : Type} (x : Timed α) (before : Clock) (a : α) (after : Clock) : Prop :=
  outcome x before = (.ok a, after)

theorem outcome_bind {α β : Type} (x : Timed α) (f : α → Timed β) (before : Clock) :
    outcome (x >>= f) before
      = match outcome x before with
        | (.ok a, between) => outcome (f a) between
        | (.error fault, between) => (.error fault, between) := by
  unfold outcome ExceptT.run StateT.run
  -- A sequence is a match on the result of its first part.
  simp only [bind, ExceptT.bind, ExceptT.mk, StateT.bind, ExceptT.bindCont]
  cases x before with
  | mk result between => cases result <;> rfl

theorem outcome_bind_of_ok {α β : Type} {x : Timed α} {before between : Clock} {a : α}
    (h : outcome x before = (.ok a, between)) (f : α → Timed β) :
    outcome (x >>= f) before = outcome (f a) between := by
  rw [outcome_bind, h]

theorem outcome_bind_of_error {α β : Type} {x : Timed α} {before between : Clock}
    {fault : Fault} (h : outcome x before = (.error fault, between)) (f : α → Timed β) :
    outcome (x >>= f) before = (.error fault, between) := by
  rw [outcome_bind, h]

theorem returns_pure {α : Type} (a b : α) (before after : Clock) :
    Returns (pure a) before b after ↔ a = b ∧ before = after := by
  change ((Except.ok a, before) : Except Fault α × Clock) = (.ok b, after) ↔ _
  simp only [Prod.mk.injEq, Except.ok.injEq]

theorem returns_bind {α β : Type} (x : Timed α) (f : α → Timed β) (before : Clock) (b : β)
    (after : Clock) :
    Returns (x >>= f) before b after
      ↔ ∃ a between, Returns x before a between ∧ Returns (f a) between b after := by
  unfold Returns
  rw [outcome_bind]
  rcases outcome x before with ⟨fault | a, between⟩
  · -- The first part stops, and the second is never begun.
    simp only [Prod.mk.injEq, reduceCtorEq, false_and, exists_false]
  · simp only [Prod.mk.injEq, Except.ok.injEq]
    constructor
    · intro h
      exact ⟨a, between, ⟨rfl, rfl⟩, h⟩
    · rintro ⟨_, _, ⟨rfl, rfl⟩, h⟩
      exact h

/-- A value is returned at once, from any clock. -/
theorem Returns.pure {α : Type} (a : α) (clock : Clock) : Returns (pure a) clock a clock :=
  (returns_pure a a clock clock).mpr ⟨rfl, rfl⟩

/-- What a computation returns is handed to the next. -/
theorem Returns.bind {α β : Type} {x : Timed α} {f : α → Timed β} {before between after : Clock}
    {a : α} {b : β} (hx : Returns x before a between) (hf : Returns (f a) between b after) :
    Returns (x >>= f) before b after :=
  (returns_bind x f before b after).mpr ⟨a, between, hx, hf⟩

theorem returns_liftM {α : Type} (e : Except Fault α) (a : α) (before after : Clock) :
    Returns (liftM e) before a after ↔ e = .ok a ∧ before = after := by
  change (e, before) = (.ok a, after) ↔ _
  rw [Prod.mk.injEq]

theorem returns_orFault {ε α : Type} [Coe ε Fault] (e : Except ε α) (a : α)
    (before after : Clock) :
    Returns (liftM (orFault e)) before a after ↔ e = .ok a ∧ before = after := by
  rw [returns_liftM, orFault_eq_ok_iff]

theorem returns_unique {α : Type} (x : Timed α) (before : Clock) (a b : α)
    (after later : Clock) (ha : Returns x before a after) (hb : Returns x before b later) :
    a = b ∧ after = later := by
  have h : ((Except.ok a, after) : Except Fault α × Clock) = (.ok b, later) :=
    ha.symm.trans hb
  simpa only [Prod.mk.injEq, Except.ok.injEq] using h

/-- The computation needs no clock: from every one it ends in the same way and
    takes no sample. -/
def Gives {α : Type} (x : Timed α) (result : Except Fault α) : Prop :=
  ∀ clock, outcome x clock = (result, clock)

theorem Gives.bind {α β : Type} {x : Timed α} {f : α → Timed β} {a : α}
    {result : Except Fault β} (hx : Gives x (.ok a)) (hf : Gives (f a) result) :
    Gives (x >>= f) result :=
  fun clock => (outcome_bind_of_ok (hx clock) f).trans (hf clock)

theorem Gives.bind_error {α β : Type} {x : Timed α} {fault : Fault} (hx : Gives x (.error fault))
    (f : α → Timed β) : Gives (x >>= f) (.error fault) :=
  fun clock => outcome_bind_of_error (hx clock) f

/-- A computation that needs no clock ends in one way only. -/
theorem Gives.unique {α : Type} {x : Timed α} {r r' : Except Fault α} (h : Gives x r)
    (h' : Gives x r') : r = r' :=
  congrArg Prod.fst ((h { tick := fun _ => ⟨0, 0⟩ }).symm.trans (h' { tick := fun _ => ⟨0, 0⟩ }))

/-- If such a computation returns, it returns the same from every clock. -/
theorem Gives.of_returns {α : Type} {x : Timed α} {result : Except Fault α} (h : Gives x result)
    {before after : Clock} {a : α} (hx : Returns x before a after) :
    before = after ∧ Gives x (.ok a) := by
  have heq := (h before).symm.trans hx
  rw [Prod.mk.injEq] at heq
  exact ⟨heq.2, heq.1 ▸ h⟩

end PicoTime
