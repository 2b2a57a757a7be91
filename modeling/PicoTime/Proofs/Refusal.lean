import PicoTime.Proofs.Routes
import PicoTime.Proofs.Widening

/-!
# Refused Conversions

Seconds in double precision are asked of a datum, and resolving it is one way
to get them: what has no shape of a time is refused as invalid, a time whose
high digit is not in the range is refused as out of range, and anything else
is a timestamp, whose seconds are then put together. Where the conversion
goes that way it refuses what resolving refuses, with the same error, and
nothing that is left is too large for a double, as long as the range holds no
more than the integers of 62 bits.

A refusal may be too long to be put in words. Then both stop for that reason,
and neither refuses nor answers.

The conversion has ways of its own for two shapes. A double is answered as it
is. The current time is put together from its seconds and nanoseconds and
never meets the range, while resolving nil checks it like any other time. So
the two agree about nil exactly while the clock shows a time in the range.
Outside of it resolving refuses, and the conversion returns the seconds, or
fails to convert them if they are beyond all doubles.

## Main definitions

* `Raises`: A computation stops with an error of a class.
* `Datum.RefusedAlike`: A datum is refused by its conversion to seconds as it
  is when resolved.

## Theorems

* `Datum.outcome_inSeconds_eq`: Apart from two shapes, a conversion resolves
  first.
* `Datum.gives_resolve_and_inSeconds`: What both then end with.
* `Datum.refusedAlike_iff_of_ne_nil`: When it refuses what resolving refuses.
* `Datum.refusedAlike_nil_iff`: When it does so for the current time.
* `Datum.refusedAlike_iff`: Which data are refused alike.
* `Datum.inSeconds_unchecked`: A current time that is not refused.
-/

namespace PicoTime

open Binary64

/-- From the clock, the computation stops with an error of the class, or of a
    special case of it. -/
def Raises {α : Type} (x : Timed α) (clock : Clock) (kind : TimeErrorClass) : Prop :=
  ∃ e later, outcome x clock = (.error (.time e), later) ∧ e.kind.isA kind = true

/-- What a computation ends with decides what it raises. -/
theorem raises_iff {α : Type} {x : Timed α} {clock later : Clock} {result : Except Fault α}
    (h : outcome x clock = (result, later)) (kind : TimeErrorClass) :
    Raises x clock kind ↔ ∃ e, result = .error (.time e) ∧ e.kind.isA kind = true := by
  unfold Raises
  simp only [h, Prod.mk.injEq]
  constructor
  · rintro ⟨e, _, ⟨hresult, -⟩, hkind⟩
    exact ⟨e, hresult, hkind⟩
  · rintro ⟨e, hresult, hkind⟩
    exact ⟨e, later, ⟨hresult, rfl⟩, hkind⟩

/-- What does not end with an error of a time raises none. -/
theorem not_raises {α : Type} {x : Timed α} {clock later : Clock} {result : Except Fault α}
    (h : outcome x clock = (result, later)) (hnot : ∀ e, result ≠ .error (.time e))
    (kind : TimeErrorClass) : ¬ Raises x clock kind := by
  rw [raises_iff h]
  rintro ⟨e, he, -⟩
  exact hnot e he

/-! ## Seconds of times in range -/

/-- A timestamp has seconds unless its high digit is beyond all doubles. -/
theorem Timestamp.exists_inSeconds (t : Timestamp) (h : |t.high| < 2 ^ 1024 - 2 ^ 970) :
    ∃ x, t.inSeconds = .ok x := by
  rcases hhigh : ofInt? t.high with _ | high
  · rw [ofInt?_eq_none_iff] at hhigh
    exact absurd hhigh (not_le.mpr h)
  · exact ⟨_, by rw [inSeconds, toFloat?, hhigh]; rfl⟩

/-- The nanoseconds of a clock in order are rounded as a part of a second. -/
theorem Sample.exists_quotient (s : Sample) (hnonneg : 0 ≤ s.nanoseconds)
    (hlt : s.nanoseconds < 1000000000) :
    ∃ fraction, quotient? s.nanoseconds 1000000000 = some fraction ∧
      fraction.Near ((2 : Rat) ^ (-54 : Int)) (s.nanoseconds / 1000000000) := by
  have hsize : |(s.nanoseconds : Rat) / 1000000000| ≤ (2 : Rat) ^ 0 := by
    have hle : (s.nanoseconds : Rat) ≤ 1000000000 := by exact_mod_cast hlt.le
    rw [abs_of_nonneg (div_nonneg (by exact_mod_cast hnonneg) (by norm_num)), pow_zero,
      div_le_one (by norm_num)]
    exact hle
  have hnear := (rounds_round false _).near 0 (by norm_num) hsize
  exact ⟨_, if_pos hnear.1, hnear⟩

/-- A sample of a clock in order has seconds unless they are beyond all
    doubles. -/
theorem Sample.exists_inSeconds (s : Sample) (h : |s.seconds| < 2 ^ 1024 - 2 ^ 970)
    (hnonneg : 0 ≤ s.nanoseconds) (hlt : s.nanoseconds < 1000000000) :
    ∃ x, s.inSeconds = .ok x := by
  rcases s.exists_quotient hnonneg hlt with ⟨fraction, hfraction, -⟩
  rcases hseconds : ofInt? s.seconds with _ | whole
  · rw [ofInt?_eq_none_iff] at hseconds
    exact absurd hseconds (not_le.mpr h)
  · exact ⟨_, by rw [inSeconds, hfraction, hseconds]⟩

/-- Eighty binary places are far from the end of the doubles. -/
theorem abs_lt_of_le_two_pow {n : Int} (h : |n| ≤ 2 ^ 80) : |n| < 2 ^ 1024 - 2 ^ 970 := by
  have hsmall : (2 : Int) ^ 80 < 2 ^ 1023 := pow_lt_pow_right₀ (by norm_num) (by norm_num)
  have hspace : (2 : Int) ^ 970 ≤ 2 ^ 1023 := pow_le_pow_right₀ (by norm_num) (by norm_num)
  have hdouble : (2 : Int) ^ 1024 = 2 * 2 ^ 1023 := pow_succ' 2 1023
  rw [hdouble]
  generalize (2 : Int) ^ 1023 = half at *
  generalize (2 : Int) ^ 970 = space at *
  omega

/-- A high digit in a range of integers of 62 bits has no more places than
    that. -/
theorem HighRange.Within.abs_le {range : HighRange} (hwithin : range.Within .fixnum) {n : Int}
    (hn : n ∈ range) : |n| ≤ 2 ^ 61 := by
  rcases hwithin.mem hn with ⟨hmin, hmax⟩
  change -2305843009213693952 ≤ n at hmin
  change n ≤ 2305843009213693951 at hmax
  rw [abs_le']
  omega

/-- Such a range can be named. -/
theorem HighRange.Within.isShowable {range : HighRange} (hwithin : range.Within .fixnum) :
    range.isShowable = true := by
  have hbounds (n : Int) (hn : n ∈ range) : hasNumeral n = true :=
    hasNumeral_of_mem (show fixnum.isShowable = true from rfl) (hwithin.mem hn)
  rw [HighRange.isShowable, hbounds _ ⟨le_rfl, range.min_le_max⟩,
    hbounds _ ⟨range.min_le_max, le_rfl⟩]
  rfl

/-- A dividend with a double for its quotient is not beyond all doubles, times
    the divisor. -/
theorem Binary64.abs_lt_of_quotient? {n : Int} {d : Nat} {x : Binary64} (hd : 0 < d)
    (h : quotient? n d = some x) : |n| < (2 ^ 1024 - 2 ^ 970) * d := by
  unfold quotient? at h
  dsimp only at h
  split_ifs at h with hfinite
  have hcast : ((2 ^ 1024 - 2 ^ 970 : Int) : Rat) = 2 ^ 1024 - 2 ^ 970 := by
    simp only [Int.cast_sub, Int.cast_pow, Int.cast_ofNat]
  rw [isFinite_round_iff, ← hcast] at hfinite
  generalize (2 ^ 1024 - 2 ^ 970 : Int) = bound at hfinite ⊢
  rw [abs_div, Nat.abs_cast, div_lt_iff₀ (by exact_mod_cast hd)] at hfinite
  exact_mod_cast hfinite

/-- A sample that has seconds has a high digit that can be written. -/
theorem Sample.hasNumeral_of_inSeconds (s : Sample) (x : Binary64) (h : s.inSeconds = .ok x) :
    hasNumeral (Components.ofSample s).normalize.high = true := by
  unfold inSeconds at h
  rcases hquotient : quotient? s.nanoseconds 1000000000 with _ | fraction
  · rw [hquotient] at h
    cases h
  rcases hwhole : ofInt? s.seconds with _ | whole
  · rw [hquotient, hwhole] at h
    cases h
  have hseconds : |s.seconds| < 2 ^ 1024 - 2 ^ 970 := by
    rw [← not_le, ← ofInt?_eq_none_iff, hwhole]
    exact nofun
  have hnanoseconds : |s.nanoseconds| < (2 ^ 1024 - 2 ^ 970) * 1000000000 :=
    abs_lt_of_quotient? (by norm_num) hquotient
  -- The high digit counts units of more seconds than either number can make up.
  have hsize : |(Components.ofSample s).normalize.high| < 2 ^ 1024 := by
    have hspace : (0 : Int) < 2 ^ 970 := pow_pos two_pos 970
    rw [Timestamp.high_eq, Components.picoseconds_normalize, picoseconds_ofSample, picoseconds]
    generalize (2 : Int) ^ 1024 = size at *
    generalize (2 : Int) ^ 970 = space at *
    rw [abs_lt] at hseconds hnanoseconds ⊢
    omega
  exact hasNumeral_of_abs_lt (by decide) hsize

namespace Datum

/-! ## Data that are resolved first -/

section

variable (range : HighRange) (spec : Datum) (hnil : spec ≠ .nil) (hfloat : ∀ x, spec ≠ .float x)
include hnil hfloat

/-- Anything but nil and the doubles is resolved, and its timestamp is
    converted. -/
theorem outcome_inSeconds_eq (clock : Clock) :
    outcome (spec.inSeconds range) clock
      = outcome (spec.resolve range >>= fun p => liftM (orFault p.1.inSeconds)) clock := by
  rcases hform : spec.form? with _ | form
  · -- The conversion refuses itself what has no form.
    have hdecode : outcome (spec.decode range) clock
        = ((Decoded.failure .typeMismatch (.notATime spec) 0).worded, clock) := by
      unfold decode
      rw [hform]
      rfl
    have hresolve := outcome_resolve hdecode
    rw [Decoded.toExcept_worded_failure] at hresolve
    rw [outcome_bind_of_error hresolve, inSeconds, hform]
    rfl
  · unfold inSeconds resolve decode
    rw [hform]
    rw [form?_eq_bind spec hnil hfloat] at hform
    rcases Option.bind_eq_some_iff.mp hform with ⟨f, -, hfields⟩
    rcases Option.map_eq_some_iff.mp hfields with ⟨low, -, rfl⟩
    simp only [Form.inSeconds, Form.decode]
    -- Both sides go on with the result that the places decode to.
    rcases (Decoded.ofPlaces range f.high low f.micro f.pico f.length).worded with _ | d
    · rfl
    · cases d <;> rfl

/-- Resolving it returns a time in the range, or raises one of two errors, as
    far as that can be put in words. -/
theorem gives_resolve_cases :
    (∃ t n, t.high ∈ range ∧ spec.Answerable range ∧ Gives (spec.resolve range) (.ok (t, n))) ∨
      ∃ e : TimeError, (e.kind = .invalid ∨ e.kind = .outOfRange) ∧
        (e.cause.isShowable = true ↔ spec.Answerable range) ∧
        Gives (spec.resolve range) (.error e.worded) := by
  rcases decode_cases range spec hnil hfloat with ⟨f, c, hf, hc, hdecode⟩ | ⟨hnone, hdecode⟩
  · have hgives (clock : Clock) : outcome (spec.decode range) clock
        = ((Decoded.checked range c.normalize f.length).worded, clock) := by
      rw [hdecode]
      rfl
    have hanswer := answerable_iff_of_hold range spec f c hf hc
    by_cases hmem : c.normalize.high ∈ range
    · refine Or.inl ⟨c.normalize, f.length, hmem, hanswer.mpr (Or.inl hmem), fun clock => ?_⟩
      rw [outcome_resolve (hgives clock), Decoded.worded_checked_of_mem _ hmem]
      rfl
    · refine Or.inr ⟨.outOfRange (.highOutside c.normalize.high range), Or.inr rfl, ?_,
        fun clock => ?_⟩
      · rw [hanswer, or_iff_right hmem]
        exact Cause.isShowable_highOutside range _
      · rw [outcome_resolve (hgives clock), Decoded.checked, if_neg hmem,
          Decoded.toExcept_worded_failure]
        rfl
  · refine Or.inr ⟨.invalid spec.misfit, Or.inl rfl, ?_, fun clock => ?_⟩
    · exact (answerable_iff_of_not_hold range spec hnone).symm
    · have hgives : outcome (spec.decode range) clock
          = ((Decoded.mismatch spec.misfit).worded, clock) := by
        rw [hdecode]
        rfl
      rw [outcome_resolve hgives, Decoded.mismatch, Decoded.toExcept_worded_failure]
      rfl

/-- What resolving raises, converting to seconds raises too. -/
theorem gives_inSeconds_of_error {fault : Fault}
    (h : Gives (spec.resolve range) (.error fault)) :
    Gives (spec.inSeconds range) (.error fault) := by
  intro clock
  rw [outcome_inSeconds_eq range spec hnil hfloat clock]
  exact outcome_bind_of_error (h clock) _

/-- The seconds are those of the timestamp that is resolved. -/
theorem gives_inSeconds_of_ok {t : Timestamp} {n : Int} {x : Binary64}
    (h : Gives (spec.resolve range) (.ok (t, n))) (hx : t.inSeconds = .ok x) :
    Gives (spec.inSeconds range) (.ok x) := by
  intro clock
  rw [outcome_inSeconds_eq range spec hnil hfloat clock, outcome_bind_of_ok (h clock), hx]
  rfl

/-- Within a range of integers of 62 bits it is a time and has seconds, or it
    is refused twice with one error. -/
theorem gives_resolve_and_inSeconds (hwithin : range.Within .fixnum) :
    (∃ t n x, spec.Answerable range ∧ Gives (spec.resolve range) (.ok (t, n)) ∧
        Gives (spec.inSeconds range) (.ok x)) ∨
      ∃ e : TimeError, (e.kind = .invalid ∨ e.kind = .outOfRange) ∧
        (e.cause.isShowable = true ↔ spec.Answerable range) ∧
        Gives (spec.resolve range) (.error e.worded) ∧
          Gives (spec.inSeconds range) (.error e.worded) := by
  rcases gives_resolve_cases range spec hnil hfloat with
    ⟨t, n, hmem, hanswer, hresolve⟩ | ⟨e, he, hanswer, hresolve⟩
  · -- A high digit in the range is far too small to have no seconds.
    have hsmall := abs_lt_of_le_two_pow ((hwithin.abs_le hmem).trans (by norm_num))
    rcases t.exists_inSeconds hsmall with ⟨x, hx⟩
    exact Or.inl ⟨t, n, x, hanswer, hresolve,
      gives_inSeconds_of_ok range spec hnil hfloat hresolve hx⟩
  · exact Or.inr ⟨e, he, hanswer, hresolve,
      gives_inSeconds_of_error range spec hnil hfloat hresolve⟩

end

/-! ## Refusing alike -/

/-- Converting the datum to seconds refuses it as resolving does. One of them
    raises an invalid time if the other does, and a time out of range if the
    other does, and the conversion returns a double if resolving raises
    neither. -/
structure RefusedAlike (range : HighRange) (spec : Datum) (clock : Clock) : Prop where
  invalid : Raises (spec.inSeconds range) clock .invalid
    ↔ Raises (spec.resolve range) clock .invalid
  outOfRange : Raises (spec.inSeconds range) clock .outOfRange
    ↔ Raises (spec.resolve range) clock .outOfRange
  returns : ¬ Raises (spec.resolve range) clock .invalid →
    ¬ Raises (spec.resolve range) clock .outOfRange →
      ∃ x later, Returns (spec.inSeconds range) clock x later

/-- Data that are resolved first are refused alike, if the refusal can be put
    in words. -/
theorem refusedAlike_iff_of_ne_nil (range : HighRange) (hwithin : range.Within .fixnum)
    (spec : Datum) (hnil : spec ≠ .nil) (hfloat : ∀ x, spec ≠ .float x) (clock : Clock) :
    spec.RefusedAlike range clock ↔ spec.Answerable range := by
  rcases gives_resolve_and_inSeconds range spec hnil hfloat hwithin with
    ⟨t, n, x, hanswer, hresolve, hseconds⟩ | ⟨e, he, hanswer, hresolve, hseconds⟩
  · have hneither (kind : TimeErrorClass) :
        Raises (spec.inSeconds range) clock kind ↔ Raises (spec.resolve range) clock kind :=
      iff_of_false (not_raises (hseconds clock) (fun _ h => by cases h) kind)
        (not_raises (hresolve clock) (fun _ h => by cases h) kind)
    exact iff_of_true ⟨hneither _, hneither _, fun _ _ => ⟨x, clock, hseconds clock⟩⟩ hanswer
  have hsame (kind : TimeErrorClass) :
      Raises (spec.inSeconds range) clock kind ↔ Raises (spec.resolve range) clock kind := by
    rw [raises_iff (hseconds clock), raises_iff (hresolve clock)]
    simp only [Except.error.injEq]
  rw [← hanswer]
  constructor
  · intro h
    by_contra hlong
    rw [TimeError.worded_of_not_isShowable hlong] at hresolve hseconds
    have hpasses := not_raises (hresolve clock) fun _ h => by cases h
    rcases h.returns (hpasses _) (hpasses _) with ⟨x, later, hx⟩
    rw [Returns, hseconds clock] at hx
    cases hx
  · intro hshow
    refine ⟨hsame _, hsame _, fun hinvalid houtOfRange => ?_⟩
    rw [TimeError.worded_of_isShowable hshow] at hresolve
    -- The error is of one of the two classes.
    rw [raises_iff (hresolve clock)] at hinvalid houtOfRange
    rcases he with he | he
    · exact absurd ⟨e, rfl, by rw [he]; rfl⟩ hinvalid
    · exact absurd ⟨e, rfl, by rw [he]; rfl⟩ houtOfRange

/-- The current time is refused alike exactly if it is in the range and is not
    beyond all doubles: only resolving checks it. -/
theorem refusedAlike_nil_iff (range : HighRange) (hshow : range.isShowable = true)
    (clock : Clock) :
    Datum.nil.RefusedAlike range clock
      ↔ (Components.ofSample clock.next).normalize.high ∈ range ∧
        ∃ x, clock.next.inSeconds = .ok x := by
  have hseconds : outcome (Datum.nil.inSeconds range) clock
      = (orFault clock.next.inSeconds, clock.advance) := rfl
  have hresolve := outcome_resolve (outcome_decode_nil range clock)
  have hnamed := clock.next.hasNumeral_of_inSeconds
  generalize (Components.ofSample clock.next).normalize = t at *
  -- Converting a sample may fail, but it does not raise an error of a time.
  have hraises := not_raises hseconds fun e he => by
    rcases hs : clock.next.inSeconds with _ | _ <;> rw [hs] at he <;> cases he
  by_cases hmem : t.high ∈ range
  · rw [Decoded.worded_checked_of_mem 4 hmem] at hresolve
    have hpasses := not_raises hresolve fun _ h => by cases h
    constructor
    · rintro ⟨-, -, hreturns⟩
      rcases hreturns (hpasses _) (hpasses _) with ⟨x, later, hx⟩
      rw [Returns, hseconds, Prod.mk.injEq, orFault_eq_ok_iff] at hx
      exact ⟨hmem, x, hx.1⟩
    · rintro ⟨-, x, hx⟩
      rw [hx] at hseconds
      exact ⟨iff_of_false (hraises _) (hpasses _), iff_of_false (hraises _) (hpasses _),
        fun _ _ => ⟨x, clock.advance, hseconds⟩⟩
  refine iff_of_false (fun h => ?_) (fun h => hmem h.1)
  by_cases hname : range.CanName t.high
  · -- Resolving raises what the conversion does not look for.
    rw [Decoded.worded_checked_of_canName 4 hmem hname] at hresolve
    exact hraises _ (h.outOfRange.mpr ((raises_iff hresolve _).mpr ⟨_, rfl, rfl⟩))
  · -- Resolving stops, and so far from the epoch the conversion fails as well.
    rw [Decoded.worded_checked_of_not_canName 4 hmem hname] at hresolve
    have hpasses := not_raises hresolve fun _ h => by cases h
    rcases h.returns (hpasses _) (hpasses _) with ⟨x, later, hx⟩
    rw [Returns, hseconds, Prod.mk.injEq, orFault_eq_ok_iff] at hx
    exact hname ⟨hnamed x hx.1, hshow⟩

end Datum

/-- Which data other than doubles are refused alike, when they are converted
    to seconds and when they are resolved, within a range of integers of 62
    bits. Anything but nil is, unless it is no time and that cannot be put in
    words, and both stop with the same error in any case. Nil is exactly if the
    sample to come is a time in the range whose seconds are not beyond all
    doubles; of a clock in order, exactly if the high part of the seconds is in
    the range. -/
theorem Datum.refusedAlike_iff (range : HighRange) (hwithin : range.Within .fixnum)
    (spec : Datum) (hfloat : ∀ x, spec ≠ .float x) (clock : Clock) :
    (spec.RefusedAlike range clock ↔
      (spec ≠ .nil → spec.Answerable range) ∧
      (spec = .nil → (Components.ofSample clock.next).normalize.high ∈ range ∧
        ∃ x, clock.next.inSeconds = .ok x)) ∧
    (spec ≠ .nil → ∀ fault, outcome (spec.inSeconds range) clock = (.error fault, clock)
      ↔ outcome (spec.resolve range) clock = (.error fault, clock)) ∧
    (0 ≤ clock.next.nanoseconds → clock.next.nanoseconds < 1000000000 →
      (spec.RefusedAlike range clock ↔
        (spec ≠ .nil → spec.Answerable range) ∧
        (spec = .nil → clock.next.seconds / 65536 ∈ range))) := by
  by_cases hnil : spec = .nil
  · subst hnil
    rw [refusedAlike_nil_iff range hwithin.isShowable]
    simp only [ne_eq, not_true_eq_false, false_implies, true_implies, true_and]
    intro hnonneg hlt
    rw [clock.next.high_normalize hnonneg hlt]
    refine ⟨fun h => h.1, fun h => ⟨h, clock.next.exists_inSeconds ?_ hnonneg hlt⟩⟩
    have hhigh := hwithin.abs_le h
    refine abs_lt_of_le_two_pow ?_
    rw [abs_le] at hhigh ⊢
    omega
  · rw [refusedAlike_iff_of_ne_nil range hwithin spec hnil hfloat clock]
    have hother (p : Prop) : spec.Answerable range
        ↔ (spec ≠ .nil → spec.Answerable range) ∧ (spec = .nil → p) :=
      ⟨fun h => ⟨fun _ => h, fun hn => absurd hn hnil⟩, fun h => h.1 hnil⟩
    refine ⟨hother _, fun _ fault => ?_, fun _ _ => hother _⟩
    rcases gives_resolve_and_inSeconds range spec hnil hfloat hwithin with
      ⟨t, n, x, -, hresolve, hseconds⟩ | ⟨e, -, -, hresolve, hseconds⟩
    · simp only [hseconds clock, hresolve clock, Prod.mk.injEq, reduceCtorEq, false_and]
    · simp only [hseconds clock, hresolve clock, Prod.mk.injEq, Except.error.injEq]

/-- Within the two high digits around the epoch, the current time is refused
    alike a nanosecond before the epoch and not a day and a half after it. A
    dotted list of the later time is refused by its conversion as it is when
    resolved. -/
theorem Datum.refusedAlike_iff_around_epoch :
    let range : HighRange := ⟨-1, 0, by decide, by decide⟩
    let late : Clock := { tick := fun _ => ⟨131072, 0⟩ }
    range.Within .fixnum ∧
      Datum.nil.RefusedAlike range { tick := fun _ => ⟨-1, 999999999⟩ } ∧
      ¬ Datum.nil.RefusedAlike range late ∧
      outcome ((Datum.dotted (.int 1) [] (.int 65536)).inSeconds range) late
        = (.error (.time (.outOfRange (.highOutside 2 range))), late) := by
  intro range late
  have hwithin : range.Within .fixnum := ⟨by decide, by decide⟩
  refine ⟨hwithin, ?_, ?_, ?_⟩
  · exact ((refusedAlike_iff range hwithin .nil nofun { tick := fun _ => ⟨-1, 999999999⟩ }).2.2
      (by decide) (by decide)).mpr ⟨fun hnot => absurd rfl hnot, fun _ => by decide⟩
  · rw [(refusedAlike_iff range hwithin .nil nofun late).2.2 (by decide) (by decide)]
    exact fun h => absurd (h.2 rfl) (by decide)
  · exact ((refusedAlike_iff range hwithin (.dotted (.int 1) [] (.int 65536)) nofun late).2.1 nofun
      _).mpr (by unfold range; rfl)

/-- The current time a day and a half after the epoch is not within the two
    high digits around it. Resolving refuses it, and the conversion to seconds
    returns it. -/
theorem Datum.inSeconds_unchecked :
    let range : HighRange := ⟨-1, 0, by decide, by decide⟩
    let clock : Clock := { tick := fun _ => ⟨131072, 0⟩ }
    outcome (Datum.nil.resolve range) clock
        = (.error (.time (.outOfRange (.highOutside 2 range))), clock.advance) ∧
      outcome (Datum.nil.inSeconds range) clock
        = (.ok (ofBits 0x4100000000000000), clock.advance) ∧
      ¬ ∀ (range : HighRange) (spec : Datum) (clock : Clock), range.Within .fixnum →
        (∀ x, spec ≠ .float x) → spec.RefusedAlike range clock := by
  intro range clock
  have hresolve : outcome (Datum.nil.resolve range) clock
      = (.error (.time (.outOfRange (.highOutside 2 range))), clock.advance) := by
    unfold range clock
    rfl
  have hsample : Sample.inSeconds ⟨131072, 0⟩ = .ok (ofBits 0x4100000000000000) := by
    decide +kernel
  have hseconds : outcome (Datum.nil.inSeconds range) clock
      = (.ok (ofBits 0x4100000000000000), clock.advance) := by
    change (orFault (Sample.inSeconds ⟨131072, 0⟩), clock.advance) = _
    rw [hsample]
    rfl
  refine ⟨hresolve, hseconds, fun halike => ?_⟩
  have hrefused := (halike range .nil clock ⟨by decide, by decide⟩ nofun).outOfRange.mpr
    ((raises_iff hresolve _).mpr ⟨_, rfl, rfl⟩)
  exact not_raises hseconds (fun _ h => by cases h) _ hrefused

end PicoTime
