import PicoTime.Proofs.Routes
import PicoTime.Proofs.RunningTotal
import PicoTime.Proofs.Window

/-!
# Calls on One Clock

Several calls may share a clock, and each asks it for the current time as
often as it meets nil. What a call takes from the clock decides what the calls
after it see, so it matters which operands are reached at all: the left one
always, and the right one only behind a left one that is a time. A call that
fails keeps what it took.

To settle a call is to write the sample that an operand would take in its
place. A settled call needs no clock any more, and that is all there is to a
clock: every call of a sequence answers as it does when it is settled, and
the clock is moved on by one for each operand that was settled. The proof
follows one operand first, then the two of a call, and then the calls by
induction, since all that one of them hands to the next is the clock.

What a settled call answers is said by a relation with one rule for each way
a call can end. Operands are judged from left to right and the first that is
no time ends the call, so a call that overflows has two operands that are
times. Every rule for a call that fails names the error, and the call answers
with that error as far as it can be put in words.

## Main definitions

* `Call`, `Call.run`: A call, and the computation it is.
* `runCalls`: The answers of some calls on one clock.
* `Sample.spelled`: A sample as a list of places.
* `Datum.settle`, `Call.settle`, `settleCalls`: Samples in place of nil.
* `Datum.passed`, `Call.passed`: The clock behind an operand and a call.
* `Datum.Denotes`: An operand is a time.
* `Datum.Refused`, `Datum.Fails`: Why it is none.
* `Call.Answers`: How a settled call answers.

## Theorems

* `Datum.gives_resolve_settle`: An operand resolves as it does when settled.
* `Datum.denotes_or_fails`: An operand is a time or fails.
* `Call.outcome_run`: A call answers as it does when settled.
* `Call.answers_of_gives`: Its answer is that of one of the rules.
* `HighRange.hasFiniteWindow_iff`: Which ranges have a finite window.
* `runCalls_settled`: The calls of a sequence answer as they do when settled.
* `runCalls_stops`: A call whose error cannot be put in words.
-/

namespace PicoTime

/-! ## Calls -/

/-- An operation on two times. -/
inductive Operation where
  | sum
  | difference

namespace Operation

/-- The operation on two data. -/
def run : Operation → HighRange → Datum → Datum → Timed (List Int)
  | .sum => Datum.add
  | .difference => Datum.subtract

/-- The operation on two timestamps. -/
def apply : Operation → Timestamp → Timestamp → Timestamp
  | .sum, s, t => s + t
  | .difference, s, t => s - t

end Operation

/-- A call that may ask for the current time. -/
inductive Call where
  /-- Resolve a datum. -/
  | resolve (spec : Datum)
  /-- Add two data, or subtract one from the other. -/
  | combine (op : Operation) (a b : Datum)

/-- What a call answers. -/
inductive Answer where
  /-- A timestamp and the length it was written with. -/
  | time (t : Timestamp) (length : Int)
  /-- The places of a result. -/
  | places (digits : List Int)

/-- The computation that a call is. -/
def Call.run (range : HighRange) : Call → Timed Answer
  | .resolve spec => do
    let (t, n) ← spec.resolve range
    return .time t n
  | .combine op a b => do
    return .places (← op.run range a b)

/-- What some calls answer, one after the other, and the clock they leave. A
    call that fails leaves the clock to the next one as it is by then. -/
def runCalls (range : HighRange) : List Call → Clock → List (Except Fault Answer) × Clock
  | [], clock => ([], clock)
  | call :: calls, clock =>
    let (answer, between) := outcome (call.run range) clock
    let (answers, after) := runCalls range calls between
    (answer :: answers, after)

/-! ## Settling -/

/-- A sample as a list of places. Its nanoseconds are rounded down to
    microseconds. -/
def Sample.spelled (s : Sample) : Datum :=
  .ofInts [s.seconds / 65536, s.seconds % 65536, s.nanoseconds / 1000,
    s.nanoseconds % 1000 * 1000]

namespace Datum

/-- The operand with the sample it takes in its place. Only nil takes one. -/
def settle (clock : Clock) : Datum → Datum
  | .nil => clock.next.spelled
  | spec => spec

/-- The clock behind an operand. -/
def passed (clock : Clock) : Datum → Clock
  | .nil => clock.advance
  | _ => clock

/-- Whether the operand is a time at the clock. -/
def resolves (range : HighRange) (clock : Clock) (spec : Datum) : Bool :=
  (outcome (spec.resolve range) clock).1.isOk

end Datum

namespace Call

/-- The call with samples in place of nil. Behind a left operand that is no
    time the right one is not reached and stays. -/
def settle (range : HighRange) (clock : Clock) : Call → Call
  | .resolve spec => .resolve (spec.settle clock)
  | .combine op a b =>
    .combine op (a.settle clock)
      (if a.resolves range clock then b.settle (a.passed clock) else b)

/-- The clock behind the operands that are reached. -/
def passed (range : HighRange) (clock : Clock) : Call → Clock
  | .resolve spec => spec.passed clock
  | .combine _ a b =>
    if a.resolves range clock then b.passed (a.passed clock) else a.passed clock

end Call

/-- Some calls with samples in place of nil, and the clock behind them. -/
def settleCalls (range : HighRange) : List Call → Clock → List Call × Clock
  | [], clock => ([], clock)
  | call :: calls, clock =>
    let (settled, after) := settleCalls range calls (call.passed range clock)
    (call.settle range clock :: settled, after)

/-! ## Operands -/

/-- Carries keep the count of a spelled sample as well. -/
theorem Sample.decode_spelled (range : HighRange) (s : Sample) :
    s.spelled.decode range
      = liftM (Decoded.checked range (Components.ofSample s).normalize 4).worded := by
  have hcount : Components.picoseconds ⟨s.seconds / 65536, s.seconds % 65536,
      s.nanoseconds / 1000, s.nanoseconds % 1000 * 1000⟩ = (Components.ofSample s).picoseconds := by
    simp only [Components.picoseconds, Components.ofSample]
    omega
  rw [← Components.normalize_congr _ _ hcount]
  exact Datum.decode_ofInts_toList range ⟨_, _, _, _⟩

namespace Datum

theorem settle_of_ne_nil (clock : Clock) (spec : Datum) (h : spec ≠ .nil) :
    spec.settle clock = spec ∧ spec.passed clock = clock := by
  cases spec with
  | nil => exact absurd rfl h
  | _ => exact ⟨rfl, rfl⟩

theorem settle_ne_nil (clock : Clock) (spec : Datum) : spec.settle clock ≠ .nil := by
  cases spec <;> simp only [settle, Sample.spelled, ofInts, ne_eq, reduceCtorEq, not_false_eq_true]

/-- An operand resolves as it does when it is settled, and moves the clock on
    if it is nil. -/
theorem gives_resolve_settle (range : HighRange) (clock : Clock) (spec : Datum) :
    ∃ result, Gives ((spec.settle clock).resolve range) result ∧
      outcome (spec.resolve range) clock = (result, spec.passed clock) := by
  by_cases hnil : spec = .nil
  · subst hnil
    -- The sample and its spelling decode to the same result.
    refine ⟨_, fun other => outcome_resolve ?_, outcome_resolve (outcome_decode_nil range clock)⟩
    rw [settle, Sample.decode_spelled]
    rfl
  · rcases settle_of_ne_nil clock spec hnil with ⟨hsettle, hpassed⟩
    rcases exists_gives_resolve range spec hnil with ⟨result, hresult⟩
    rw [hsettle, hpassed]
    exact ⟨result, hresult, hresult clock⟩

end Datum

/-! ## Calls answer as they do when settled -/

namespace Operation

/-- An operation on two data is checked to be in the range. -/
theorem run_eq (op : Operation) (range : HighRange) (a b : Datum) :
    op.run range a b
      = Datum.combine (fun r s t => Timestamp.within r s t (op.apply s t)) range a b := by
  cases op <;> rfl

/-- What is left of an operation once both operands are resolved. -/
def rest (op : Operation) (range : HighRange) (s t : Timestamp) (n : Int) :
    Timed (List Int) := do
  let total ← Timestamp.within range s t (op.apply s t)
  orFault (total.encode n)

/-- Behind a left operand that fails, the right one is not reached. -/
theorem outcome_run_of_left (op : Operation) (range : HighRange) {a : Datum} (b : Datum)
    {before between : Clock} {fault : Fault}
    (ha : outcome (a.resolve range) before = (.error fault, between)) :
    outcome (op.run range a b) before = (.error fault, between) := by
  rw [run_eq]
  exact outcome_bind_of_error ha _

theorem outcome_run_of_right (op : Operation) (range : HighRange) {a b : Datum}
    {before between after : Clock} {s : Timestamp} {m : Int} {fault : Fault}
    (ha : outcome (a.resolve range) before = (.ok (s, m), between))
    (hb : outcome (b.resolve range) between = (.error fault, after)) :
    outcome (op.run range a b) before = (.error fault, after) := by
  rw [run_eq]
  exact (outcome_bind_of_ok ha _).trans (outcome_bind_of_error hb _)

theorem outcome_run_of_both (op : Operation) (range : HighRange) {a b : Datum}
    {before between after : Clock} {s t : Timestamp} {m n : Int}
    (ha : outcome (a.resolve range) before = (.ok (s, m), between))
    (hb : outcome (b.resolve range) between = (.ok (t, n), after)) :
    outcome (op.run range a b) before = outcome (op.rest range s t (max m n)) after := by
  rw [run_eq]
  exact (outcome_bind_of_ok ha _).trans (outcome_bind_of_ok hb _)

/-- What is left needs no clock. -/
theorem exists_gives_rest (op : Operation) (range : HighRange) (s t : Timestamp) (n : Int) :
    ∃ result, Gives (op.rest range s t n) result := by
  unfold rest
  rcases Timestamp.within range s t (op.apply s t) with e | total
  · exact ⟨_, fun clock => rfl⟩
  · exact ⟨orFault (total.encode n), fun clock => rfl⟩

/-- An operation ends as it does when its operands are settled, and leaves the
    clock behind those that it reached. -/
theorem outcome_run (op : Operation) (range : HighRange) (clock : Clock) (a b : Datum) :
    ∃ result,
      Gives (op.run range (a.settle clock)
        (if a.resolves range clock then b.settle (a.passed clock) else b)) result ∧
      outcome (op.run range a b) clock
        = (result, if a.resolves range clock then b.passed (a.passed clock)
            else a.passed clock) := by
  rcases a.gives_resolve_settle range clock with ⟨fault | ⟨s, m⟩, hgives, hout⟩
  · have hno : a.resolves range clock = false := by
      rw [Datum.resolves, hout]
      rfl
    rw [hno]
    exact ⟨_, fun other => op.outcome_run_of_left range _ (hgives other),
      op.outcome_run_of_left range b hout⟩
  · have hyes : a.resolves range clock = true := by
      rw [Datum.resolves, hout]
      rfl
    rw [if_pos hyes, if_pos hyes]
    rcases b.gives_resolve_settle range (a.passed clock) with ⟨fault | ⟨t, n⟩, hgives', hout'⟩
    · exact ⟨_, fun other => op.outcome_run_of_right range (hgives other) (hgives' other),
        op.outcome_run_of_right range hout hout'⟩
    · rcases op.exists_gives_rest range s t (max m n) with ⟨result, hrest⟩
      exact ⟨result,
        fun other => (op.outcome_run_of_both range (hgives other) (hgives' other)).trans
          (hrest other),
        (op.outcome_run_of_both range hout hout').trans (hrest _)⟩

end Operation

/-- A call answers as it does when it is settled, and leaves the clock behind
    the operands that it reached. -/
theorem Call.outcome_run (range : HighRange) (clock : Clock) (call : Call) :
    ∃ answer, Gives ((call.settle range clock).run range) answer ∧
      outcome (call.run range) clock = (answer, call.passed range clock) := by
  cases call with
  | resolve spec =>
      rcases spec.gives_resolve_settle range clock with ⟨fault | ⟨t, n⟩, hgives, hout⟩
      · exact ⟨_, hgives.bind_error _, outcome_bind_of_error hout _⟩
      · exact ⟨.ok (.time t n), hgives.bind fun _ => rfl, outcome_bind_of_ok hout _⟩
  | combine op a b =>
      rcases op.outcome_run range clock a b with ⟨fault | ns, hgives, hout⟩
      · exact ⟨_, hgives.bind_error _, outcome_bind_of_error hout _⟩
      · exact ⟨.ok (.places ns), hgives.bind fun _ => rfl, outcome_bind_of_ok hout _⟩

/-! ## What settled calls answer -/

/-- The window of the range has finite ends. -/
def HighRange.HasFiniteWindow (range : HighRange) : Prop :=
  ∃ lower upper, range.window = .ok (lower, upper) ∧ lower.isFinite = true ∧
    upper.isFinite = true

/-- The bounds at which windows become infinite, and end. -/
theorem HighRange.power_bounds : (2 : Int) ^ 1008 - 2 ^ 954 ≤ 2 ^ 1024 - 2 ^ 970 := by
  have hpow : (2 : Int) ^ 954 ≤ 2 ^ 1008 := pow_le_pow_right₀ (by norm_num) (by norm_num)
  have hupper : (2 : Int) ^ 1024 = 2 ^ 16 * 2 ^ 1008 := pow_add 2 16 1008
  have hlower : (2 : Int) ^ 970 = 2 ^ 16 * 2 ^ 954 := pow_add 2 16 954
  rw [hupper, hlower]
  generalize (2 : Int) ^ 1008 = x at *
  generalize (2 : Int) ^ 954 = y at *
  omega

/-- A window has finite ends if the number of seconds at the lower bound does
    not round past the greatest double. -/
theorem HighRange.hasFiniteWindow_iff (range : HighRange) :
    range.HasFiniteWindow ↔ -(2 ^ 1008 - 2 ^ 954) < range.min := by
  unfold HasFiniteWindow
  rcases lt_or_ge (-(2 ^ 1024 - 2 ^ 970)) range.min with hnear | hfar
  · rcases exists_window range hnear with ⟨rank, hwindow, hinfinite⟩
    rw [← not_le, ← hinfinite, not_le, hwindow]
    constructor
    · rintro ⟨lower, upper, hends, hlower, -⟩
      rw [Except.ok.injEq, Prod.mk.injEq] at hends
      rw [← hends.1] at hlower
      exact (Binary64.isFinite_ofRank true rank).mp hlower
    · intro hrank
      exact ⟨_, _, rfl, (Binary64.isFinite_ofRank true rank).mpr hrank,
        (Binary64.isFinite_ofRank false rank).mpr hrank⟩
  · rw [window_of_far range hfar]
    refine iff_of_false ?_ (not_lt.mpr (hfar.trans (neg_le_neg power_bounds)))
    rintro ⟨lower, upper, hends, -⟩
    cases hends

namespace Datum

/-- The shape of a time: nil, a double, or fields with integers. -/
def HasShape (spec : Datum) : Prop :=
  spec = .nil ∨ (∃ x, spec = .float x) ∨ ∃ f c, spec.fields? = some f ∧ Fields.Hold f c

/-- The datum is a time, and needs no clock for it. -/
def Denotes (range : HighRange) (spec : Datum) (t : Timestamp) (n : Int) : Prop :=
  Gives (spec.decode range) (.ok (.success t n))

/-- Why a datum is no time. -/
inductive Refused (range : HighRange) : Datum → TimeError → Prop where
  /-- It does not have the shape of one. -/
  | shape {spec : Datum} (h : ¬ spec.HasShape) : Refused range spec (.invalid spec.misfit)
  /-- Its integers add up to a high digit out of range. -/
  | high {spec : Datum} {f : Fields} {c : Components} (hf : spec.fields? = some f)
    (hc : f.Hold c) : Refused range spec (.outOfRange (.highOutside c.normalize.high range))
  /-- It is a double out of range, which can be named if the range can. -/
  | float {x : Binary64} {cause : Cause} (h : range.isShowable = true → cause.isShowable = true) :
    Refused range (.float x) (.outOfRange cause)

/-- The datum is no time, for the reason of the error. -/
def Fails (range : HighRange) (spec : Datum) (e : TimeError) : Prop :=
  (∀ t n, ¬ spec.Denotes range t n) ∧ spec.Refused range e

theorem Denotes.gives_resolve {range : HighRange} {spec : Datum} {t : Timestamp} {n : Int}
    (h : spec.Denotes range t n) : Gives (spec.resolve range) (.ok (t, n)) :=
  Gives.bind h fun _ => rfl

/-- A failure is raised when the datum is resolved, if it can be put in
    words. -/
theorem fails_of_failure {range : HighRange} {spec : Datum} {kind : FailureKind} {cause : Cause}
    {n : Int} (h : Gives (spec.decode range) (Decoded.failure kind cause n).worded)
    (hrefused : spec.Refused range (kind.error cause)) :
    ∃ e, spec.Fails range e ∧ Gives (spec.resolve range) (.error e.worded) := by
  refine ⟨kind.error cause, ⟨fun t m hd => ?_, hrefused⟩, ?_⟩
  · have hsuccess := (Decoded.worded_eq_success_iff _ t m).mp (h.unique hd)
    cases hsuccess
  · intro clock
    rw [outcome_resolve (h clock), Decoded.toExcept_worded_failure]

/-- A time whose high digit is checked is a time, or out of range. -/
theorem denotes_or_fails_of_checked {range : HighRange} {spec : Datum} {t : Timestamp} {n : Int}
    (h : Gives (spec.decode range) (Decoded.checked range t n).worded)
    (hrefused : spec.Refused range (.outOfRange (.highOutside t.high range))) :
    (∃ t n, spec.Denotes range t n) ∨
      ∃ e, spec.Fails range e ∧ Gives (spec.resolve range) (.error e.worded) := by
  by_cases hmem : t.high ∈ range
  · rw [Decoded.worded_checked_of_mem n hmem] at h
    exact Or.inl ⟨t, n, h⟩
  · rw [Decoded.checked, if_neg hmem] at h
    exact Or.inr (fails_of_failure h hrefused)

/-- Anything but nil is a time or fails, since with a finite window decoding
    always comes to a result. -/
theorem denotes_or_fails (range : HighRange) (hwindow : range.HasFiniteWindow) (spec : Datum)
    (hnil : spec ≠ .nil) :
    (∃ t n, spec.Denotes range t n) ∨
      ∃ e, spec.Fails range e ∧ Gives (spec.resolve range) (.error e.worded) := by
  rw [range.hasFiniteWindow_iff] at hwindow
  by_cases hfloat : ∃ x, spec = .float x
  · rcases hfloat with ⟨x, rfl⟩
    have hnear : -(2 ^ 1024 - 2 ^ 970) < range.min :=
      lt_of_le_of_lt (neg_le_neg HighRange.power_bounds) hwindow
    rcases Decoded.ofFloat_of_near range x hnear with ⟨-, hfar, -⟩ | ⟨-, d, hd, hkind, -, hshow⟩
    · exact absurd hfar (not_le.mpr hwindow)
    · have hgives : Gives ((Datum.float x).decode range) d.worded := fun clock => by
        rw [outcome_decode_float, hd]
      cases d with
      | success t n => exact Or.inl ⟨t, n, hgives⟩
      | failure kind cause n =>
          rcases hkind with hnone | hout
          · cases hnone
          · rw [Decoded.kind?, Option.some.injEq] at hout
            subst hout
            exact Or.inr (fails_of_failure hgives (.float hshow))
  · have hfloat' : ∀ x, spec ≠ .float x := fun x hx => hfloat ⟨x, hx⟩
    rcases decode_cases range spec hnil hfloat' with ⟨f, c, hf, hc, hdecode⟩ | ⟨hnone, hdecode⟩
    · exact denotes_or_fails_of_checked (fun clock => by rw [hdecode]; rfl) (.high hf hc)
    · have hshape : ¬ spec.HasShape := by
        rintro (h | h | h)
        · exact hnil h
        · exact hfloat h
        · exact hnone h
      exact Or.inr (fails_of_failure (fun clock => by rw [hdecode]; rfl) (.shape hshape))

end Datum

/-- How a settled call answers. The operands are judged from left to right. An
    error is raised as far as it can be put in words. -/
inductive Call.Answers (range : HighRange) : Call → Except Fault Answer → Prop where
  /-- The operand is a time. -/
  | resolved {spec : Datum} {t : Timestamp} {n : Int} (h : spec.Denotes range t n) :
    Answers range (.resolve spec) (.ok (.time t n))
  /-- The operand is none. -/
  | unresolved {spec : Datum} {e : TimeError} (h : spec.Fails range e) :
    Answers range (.resolve spec) (.error e.worded)
  /-- The left operand is no time, whatever the right one is. -/
  | leftFails {op : Operation} {a b : Datum} {e : TimeError} (ha : a.Fails range e) :
    Answers range (.combine op a b) (.error e.worded)
  /-- The left operand is a time, and the right one is none. -/
  | rightFails {op : Operation} {a b : Datum} {s : Timestamp} {m : Int} {e : TimeError}
    (ha : a.Denotes range s m) (hb : b.Fails range e) :
    Answers range (.combine op a b) (.error e.worded)
  /-- Both operands are times, and the result is out of range. -/
  | overflows {op : Operation} {a b : Datum} {s t : Timestamp} {m n : Int}
    (ha : a.Denotes range s m) (hb : b.Denotes range t n) (hhigh : (op.apply s t).high ∉ range) :
    Answers range (.combine op a b)
      (.error (TimeError.overflow (.resultOutside (op.apply s t).high s t range)).worded)
  /-- Both operands are times, and so is the result. -/
  | combined {op : Operation} {a b : Datum} {s t : Timestamp} {m n : Int} {ns : List Int}
    (ha : a.Denotes range s m) (hb : b.Denotes range t n) (hhigh : (op.apply s t).high ∈ range)
    (hplaces : (op.apply s t).encode (max m n) = .ok ns) :
    Answers range (.combine op a b) (.ok (.places ns))

/-- What is left of an operation on two times overflows or writes places. -/
theorem Operation.gives_rest (op : Operation) (range : HighRange) (s t : Timestamp) (n : Int)
    (hn : IsLength n) :
    ((op.apply s t).high ∉ range ∧ Gives (op.rest range s t n)
        (.error (TimeError.overflow (.resultOutside (op.apply s t).high s t range)).worded)) ∨
      ∃ ns, (op.apply s t).high ∈ range ∧ (op.apply s t).encode n = .ok ns ∧
        Gives (op.rest range s t n) (.ok ns) := by
  unfold rest Timestamp.within
  by_cases hhigh : (op.apply s t).high ∈ range
  · have hplaces := (Timestamp.encode_eq_ok_iff (op.apply s t) n _).mpr ⟨hn, rfl⟩
    rw [if_pos hhigh]
    refine Or.inr ⟨_, hhigh, hplaces, fun clock => ?_⟩
    change outcome (liftM (orFault ((op.apply s t).encode n))) clock = _
    rw [hplaces]
    rfl
  · rw [if_neg hhigh]
    exact Or.inl ⟨hhigh, fun clock => rfl⟩

theorem Datum.Denotes.isLength {range : HighRange} {spec : Datum} {t : Timestamp} {n : Int}
    (h : spec.Denotes range t n) : IsLength n :=
  (exact_of_decode range spec _ _ t n (h { tick := fun _ => ⟨0, 0⟩ })).2.1

/-- An operation whose operands were settled ends by one of the rules. -/
theorem Call.exists_answer_combine (range : HighRange) (hwindow : range.HasFiniteWindow)
    (op : Operation) (a b : Datum) (ha : a ≠ .nil)
    (hb : ∀ s m, a.Denotes range s m → b ≠ .nil) :
    ∃ answer, Gives ((Call.combine op a b).run range) answer ∧
      (Call.combine op a b).Answers range answer := by
  rcases a.denotes_or_fails range hwindow ha with ⟨s, m, hs⟩ | ⟨e, he, hleft⟩
  · rcases b.denotes_or_fails range hwindow (hb s m hs) with ⟨t, n, ht⟩ | ⟨e, he, hright⟩
    · have hboth (clock : Clock) :=
        op.outcome_run_of_both range (hs.gives_resolve clock) (ht.gives_resolve clock)
      rcases op.gives_rest range s t _ (isLength_max m n hs.isLength ht.isLength) with
        ⟨hhigh, hrest⟩ | ⟨ns, hhigh, hplaces, hrest⟩
      · exact ⟨_, Gives.bind_error (fun clock => (hboth clock).trans (hrest clock)) _,
          .overflows hs ht hhigh⟩
      · exact ⟨_, Gives.bind (fun clock => (hboth clock).trans (hrest clock)) fun _ => rfl,
          .combined hs ht hhigh hplaces⟩
    · exact ⟨_, Gives.bind_error
        (fun clock => op.outcome_run_of_right range (hs.gives_resolve clock) (hright clock)) _,
        .rightFails hs he⟩
  · exact ⟨_, Gives.bind_error (fun clock => op.outcome_run_of_left range b (hleft clock)) _,
      .leftFails he⟩

/-- A settled call answers by one of the rules. -/
theorem Call.exists_answer_settle (range : HighRange) (hwindow : range.HasFiniteWindow)
    (clock : Clock) (call : Call) :
    ∃ answer, Gives ((call.settle range clock).run range) answer ∧
      (call.settle range clock).Answers range answer := by
  cases call with
  | resolve spec =>
      rcases (spec.settle clock).denotes_or_fails range hwindow (spec.settle_ne_nil clock) with
        ⟨t, n, h⟩ | ⟨e, he, h⟩
      · exact ⟨_, h.gives_resolve.bind fun _ => rfl, .resolved h⟩
      · exact ⟨_, h.bind_error _, .unresolved he⟩
  | combine op a b =>
      refine exists_answer_combine range hwindow op _ _ (a.settle_ne_nil clock) ?_
      intro s m hs
      -- A left operand that is a time has the right one settled too.
      rcases a.gives_resolve_settle range clock with ⟨result, hgives, hout⟩
      have hyes : a.resolves range clock = true := by
        rw [Datum.resolves, hout, hgives.unique hs.gives_resolve]
        rfl
      rw [if_pos hyes]
      exact b.settle_ne_nil _

/-! ## Sequences -/

/-- The calls of a sequence answer as they do when they are settled. Each one
    that is settled needs no clock, and answers by one of the rules; and the
    clock is left behind the operands that were reached. -/
theorem runCalls_settled (range : HighRange) (hwindow : range.HasFiniteWindow)
    (calls : List Call) (clock : Clock) :
    ∃ answers, runCalls range calls clock = (answers, (settleCalls range calls clock).2) ∧
      List.Forall₂ (fun call answer => Gives (call.run range) answer ∧ call.Answers range answer)
        (settleCalls range calls clock).1 answers := by
  induction calls generalizing clock with
  | nil => exact ⟨[], rfl, .nil⟩
  | cons call calls ih =>
      rcases ih (call.passed range clock) with ⟨answers, hrun, hanswers⟩
      rcases call.outcome_run range clock with ⟨answer, hgives, hout⟩
      rcases call.exists_answer_settle range hwindow clock with ⟨answer', hgives', hanswer⟩
      rw [hgives'.unique hgives] at hanswer
      refine ⟨answer :: answers, ?_, .cons ⟨hgives, hanswer⟩ hanswers⟩
      simp only [runCalls, settleCalls, hout, hrun]

/-- The usual range has a finite window. -/
theorem HighRange.hasFiniteWindow_fixnum : fixnum.HasFiniteWindow := by
  rw [hasFiniteWindow_iff]
  have hle : (2 : Int) ^ 61 ≤ 2 ^ 1006 := pow_le_pow_right₀ (by norm_num) (by norm_num)
  exact (lt_fromPower 954 1006 (by norm_num)).trans_le (neg_le_neg hle)

/-- A difference of two times of which the first is shown out of order; then
    two calls that fail, of which only the second reaches its nil; and at last
    the fourth sample. -/
theorem runCalls_settled_through_failures :
    HighRange.fixnum.HasFiniteWindow ∧
    ∃ answers,
      runCalls .fixnum
          [.combine .difference .nil .nil, .combine .sum (.text "now") .nil,
            .combine .sum .nil (.bool true), .resolve .nil]
          (.ofTicks ⟨-1, -1⟩ [⟨70000, 1500000000⟩, ⟨5, 0⟩, ⟨6, 7⟩])
        = (answers, { Clock.ofTicks ⟨-1, -1⟩ [⟨70000, 1500000000⟩, ⟨5, 0⟩, ⟨6, 7⟩] with
            taken := 4 }) ∧
      List.Forall₂ (fun (call : Call) answer => Gives (call.run .fixnum) answer ∧
          call.Answers .fixnum answer)
        [.combine .difference (.ofInts [-1, 65535, -1, 999000]) (.ofInts [1, 4464, 1500000, 0]),
          .combine .sum (.text "now") .nil, .combine .sum (.ofInts [0, 5, 0, 0]) (.bool true),
          .resolve (.ofInts [0, 6, 0, 7000])] answers :=
  ⟨HighRange.hasFiniteWindow_fixnum,
    runCalls_settled .fixnum HighRange.hasFiniteWindow_fixnum _ _⟩

/-- Two places whose carry leads to a high digit that is far out of range, and
    too long to be written. The call answers with no error of a time. -/
theorem runCalls_stops :
    let spec := Datum.ofInts [10 ^ numeralLimit - 1, 65536]
    HighRange.fixnum.HasFiniteWindow ∧ spec.HasShape ∧ (∀ t n, ¬ spec.Denotes .fixnum t n) ∧
      ∀ clock, runCalls .fixnum [.resolve spec] clock
        = ([.error (.argument .integerTooLong)], clock) := by
  intro spec
  have hhold : Fields.Hold ⟨.int (10 ^ numeralLimit - 1), .int 65536, .int 0, .int 0, 2⟩
      ⟨10 ^ numeralLimit - 1, 65536, 0, 0⟩ := ⟨rfl, rfl, rfl, rfl⟩
  have hdecode : Gives (spec.decode .fixnum) (.error (.argument .integerTooLong)) := by
    intro clock
    rw [Datum.decode_of_hold .fixnum spec _ _ rfl hhold,
      Decoded.worded_checked_of_long _ Components.hasNumeral_high_carried rfl]
    rfl
  refine ⟨HighRange.hasFiniteWindow_fixnum, Or.inr (Or.inr ⟨_, _, rfl, hhold⟩),
    fun t n h => ?_, fun clock => ?_⟩
  · cases hdecode.unique h
  · have hrun : Gives ((Call.resolve spec).run .fixnum) (.error (.argument .integerTooLong)) :=
      (hdecode.bind_error _).bind_error _
    rw [runCalls, hrun clock]
    rfl

end PicoTime
