import PicoTime.Proofs.Fields
import PicoTime.Sample

/-!
# Routes to One Time

The same seconds and nanoseconds become a time in several ways. A clock shows
them and nil is decoded; a timestamp is made of them directly; or they are
split into four places first, and the places are decoded. The ways divide
differently. One rounds the nanoseconds down and the other toward zero, one
checks the high digit after all carries and the other before any.

They meet in the count. Each way forms components that add up to the count of
the sample, and normalising asks for nothing else, so every way comes to one
timestamp. The check is the same as well, where it is made after the carries.
A split checks before them, which is no difference if there are none: with
nanoseconds of a clock in order, the split is the digits already. It is the
refusal that differs then. A split has to name the whole seconds, which may be
too long where their high part is not.

Components that a caller writes meet the decoding of their list in the same
way.

## Main definitions

* `Sample.picoseconds`: The count of a sample.
* `Sample.places`: The places a sample is split into.
* `Decoded.Tells`: A decoding and a construction tell the same.

## Theorems

* `Sample.picoseconds_ofSample`, `Sample.picoseconds_places`: Both divisions
  keep the count.
* `Components.normalize_congr`: The count decides the timestamp.
* `Sample.places_eq_digits`: Less than a second of nanoseconds is split into
  digits.
* `Sample.split_of_canName`, `Sample.split_of_not_canName`: How a split is
  refused.
* `Datum.decode_ofInts_toList`: What four components decode to.
* `Sample.routes_agree`: All routes come to one time.
* `Sample.split_stops`: Seconds that are refused in two ways.
-/

namespace PicoTime

/-- The number of picoseconds of a sample. -/
def Sample.picoseconds (s : Sample) : Int :=
  s.seconds * 1000000000000 + s.nanoseconds * 1000

/-- The places a sample is split into, whatever the range. -/
def Sample.places (s : Sample) : Components where
  high := s.seconds / 65536
  low := lowSeconds s.seconds
  micro := s.nanoseconds.tdiv 1000
  pico := s.nanoseconds.tmod 1000 * 1000

namespace Components

/-- Components with one count are normalised to one timestamp. -/
theorem normalize_congr (c c' : Components) (h : c.picoseconds = c'.picoseconds) :
    c.normalize = c'.normalize := by
  apply Timestamp.ext_of_picoseconds
  rw [picoseconds_normalize, picoseconds_normalize, h]

end Components

namespace Sample

/-- Rounding the nanoseconds down to microseconds keeps the count. -/
theorem picoseconds_ofSample (s : Sample) :
    (Components.ofSample s).picoseconds = s.picoseconds := by
  simp only [Components.ofSample, Components.picoseconds, picoseconds]
  omega

/-- Splitting the nanoseconds toward zero keeps the count. -/
theorem picoseconds_places (s : Sample) : s.places.picoseconds = s.picoseconds := by
  have hsplit := Int.mul_tdiv_add_tmod s.nanoseconds 1000
  simp only [places, lowSeconds, Components.picoseconds, picoseconds]
  omega

/-- The split is the places of the sample, if the high part is in the range. -/
theorem split_of_mem {range : HighRange} {s : Sample} (h : s.seconds / 65536 ∈ range) :
    s.split range = .ok s.places := by
  rw [split, highSeconds, if_pos h]
  rfl

/-- The refusal of a split names the seconds. -/
theorem split_of_canName {range : HighRange} {s : Sample} (h : s.seconds / 65536 ∉ range)
    (hname : range.CanName s.seconds) :
    s.split range
      = .error (.time (.overflow (.secondsOutside s.seconds (s.seconds / 65536) range))) := by
  have hshow := (Cause.isShowable_secondsOutside range s.seconds).mpr hname
  rw [split, highSeconds, if_neg h, TimeError.worded_of_isShowable hshow]
  rfl

theorem split_of_not_canName {range : HighRange} {s : Sample} (h : s.seconds / 65536 ∉ range)
    (hname : ¬ range.CanName s.seconds) : s.split range = .error (.argument .integerTooLong) := by
  rw [split, highSeconds, if_neg h, TimeError.worded_of_not_isShowable
    fun hshow => hname ((Cause.isShowable_secondsOutside range s.seconds).mp hshow)]
  rfl

/-- Both ways to divide lead to one timestamp. -/
theorem normalize_places (s : Sample) :
    s.places.normalize = (Components.ofSample s).normalize := by
  apply Components.normalize_congr
  rw [picoseconds_places, picoseconds_ofSample]

/-- With less than a second of nanoseconds, and none below zero, the places
    are digits already. -/
theorem places_eq_digits (s : Sample) (hnonneg : 0 ≤ s.nanoseconds)
    (hlt : s.nanoseconds < 1000000000) :
    s.places = ⟨s.places.normalize.high, s.places.normalize.low, s.places.normalize.micro,
      s.places.normalize.pico⟩ := by
  -- Of a count that is not negative both divisions are the same.
  have hdiv : s.nanoseconds.tdiv 1000 = s.nanoseconds / 1000 :=
    Int.tdiv_eq_ediv_of_nonneg hnonneg
  have hmod : s.nanoseconds.tmod 1000 = s.nanoseconds % 1000 :=
    Int.tmod_eq_emod_of_nonneg hnonneg
  simp only [places, Components.normalize, lowSeconds, hdiv, hmod, Components.mk.injEq]
  omega

/-- A sample of a clock in order has the high part of its seconds for its high
    digit. -/
theorem high_normalize (s : Sample) (hnonneg : 0 ≤ s.nanoseconds)
    (hlt : s.nanoseconds < 1000000000) :
    (Components.ofSample s).normalize.high = s.seconds / 65536 := by
  simp only [Components.ofSample, Components.normalize]
  omega

end Sample

namespace Decoded

/-- A decoding and a construction tell the same: both have one timestamp, both
    are out of range, or both stop because an integer is too long. -/
def Tells (found : Except Fault Decoded) (made : Except Fault Timestamp) : Prop :=
  (∀ t, (∃ n, found = .ok (.success t n)) ↔ made = .ok t) ∧
    ((∃ cause n, found = .ok (.failure .outOfRange cause n))
      ↔ ∃ cause, made = .error (.time (.outOfRange cause))) ∧
    (found = .error (.argument .integerTooLong) ↔ made = .error (.argument .integerTooLong))

/-- Decoding and construction check a time in the same way. -/
theorem tells_checked (range : HighRange) (c : Components) (n : Int) :
    Tells (checked range c.normalize n).worded (Timestamp.ofComponents range c) := by
  rw [Timestamp.ofComponents]
  by_cases hmem : c.normalize.high ∈ range
  · rw [worded_checked_of_mem n hmem, if_pos hmem]
    simp only [Tells, Except.ok.injEq, success.injEq, exists_and_left, exists_eq', and_true,
      implies_true, reduceCtorEq, exists_false, and_self]
  rw [if_neg hmem]
  by_cases hname : range.CanName c.normalize.high
  · rw [worded_checked_of_canName n hmem hname, TimeError.worded_of_isShowable
      ((Cause.isShowable_highOutside range _).mpr hname)]
    refine ⟨fun t => iff_of_false nofun nofun, iff_of_true ⟨_, n, rfl⟩ ⟨_, rfl⟩,
      iff_of_false nofun nofun⟩
  · rw [worded_checked_of_not_canName n hmem hname, TimeError.worded_of_not_isShowable
      fun hshow => hname ((Cause.isShowable_highOutside range _).mp hshow)]
    simp only [Tells, reduceCtorEq, Except.error.injEq, exists_false, implies_true, and_self]

end Decoded

/-- Nil decodes to the timestamp of the sample to come. -/
theorem Datum.outcome_decode_nil (range : HighRange) (clock : Clock) :
    outcome (Datum.nil.decode range) clock
      = ((Decoded.checked range (Components.ofSample clock.next).normalize 4).worded,
        clock.advance) :=
  rfl

/-- Four components decode to the timestamp with their count, at any clock. -/
theorem Datum.decode_ofInts_toList (range : HighRange) (c : Components) :
    (ofInts c.toList).decode range = liftM (Decoded.checked range c.normalize 4).worded :=
  decode_of_hold range _ ⟨.int c.high, .int c.low, .int c.micro, .int c.pico, 4⟩ c rfl
    ⟨rfl, rfl, rfl, rfl⟩

/-- All routes come to one time. Decoding nil at a clock that shows a sample,
    making a timestamp of the sample, and making one of the current time have
    the same timestamp, or are all out of range, or all stop at an integer that
    is too long. Where the sample can be split, its places decode to the very
    result that nil has. If its nanoseconds are those of a clock in order, the
    split succeeds exactly where nil has a timestamp, and is what is written of
    that with all four places. Everywhere else it is an overflow, provided that
    the seconds and the range can be named, and otherwise it stops. And
    components make the timestamp that their list decodes to, or both end
    alike. -/
theorem Sample.routes_agree (range : HighRange) (s : Sample) (clock : Clock)
    (hnext : clock.next = s) :
    (∃ found, outcome (Datum.nil.decode range) clock = (found, clock.advance) ∧
      Decoded.Tells found (Timestamp.ofSample range s) ∧
      outcome (Timestamp.now range) clock = (Timestamp.ofSample range s, clock.advance) ∧
      (∀ c, s.split range = .ok c →
        ∀ other, outcome ((Datum.ofInts c.toList).decode range) other = (found, other)) ∧
      (0 ≤ s.nanoseconds → s.nanoseconds < 1000000000 →
        outcome (splitNow range) clock = (s.split range, clock.advance) ∧
        (∀ t n, found = .ok (.success t n) →
          ∃ c, s.split range = .ok c ∧ t.encode 4 = .ok c.toList) ∧
        ((∀ t n, found ≠ .ok (.success t n)) →
          (range.CanName s.seconds → ∃ cause, s.split range = .error (.time (.overflow cause))) ∧
          (¬ range.CanName s.seconds →
            s.split range = .error (.argument .integerTooLong))))) ∧
    (∀ c : Components, ∃ found,
      (∀ other, outcome ((Datum.ofInts c.toList).decode range) other = (found, other)) ∧
        Decoded.Tells found (Timestamp.ofComponents range c)) := by
  subst hnext
  set s := clock.next
  constructor
  · refine ⟨_, Datum.outcome_decode_nil range clock, Decoded.tells_checked range _ 4, rfl, ?_, ?_⟩
    · intro c hc other
      have hplaces : c = s.places := by
        by_cases hmem : s.seconds / 65536 ∈ range
        · rw [split_of_mem hmem, Except.ok.injEq] at hc
          exact hc.symm
        · rw [split, highSeconds, if_neg hmem] at hc
          cases hc
      rw [hplaces, Datum.decode_ofInts_toList, normalize_places]
      rfl
    · intro hnonneg hlt
      have hdigits := s.places_eq_digits hnonneg hlt
      -- Without carries the range is asked for the same high digit.
      have hhigh : s.seconds / 65536 = s.places.normalize.high := congrArg Components.high hdigits
      have hlist : s.places.toList = s.places.normalize.toList := congrArg Components.toList hdigits
      have hencode : s.places.normalize.encode 4 = .ok s.places.toList := by
        rw [hlist]
        exact (Timestamp.encode_eq_ok_iff _ 4 _).mpr ⟨Or.inr (Or.inr rfl), rfl⟩
      rw [← normalize_places]
      refine ⟨rfl, fun t n ht => ?_, fun hnone => ?_⟩
      · rw [Decoded.worded_eq_success_iff, Decoded.checked_eq_success_iff] at ht
        rcases ht with ⟨hmem, rfl, -⟩
        exact ⟨s.places, split_of_mem (hhigh ▸ hmem), hencode⟩
      · have hmem : s.seconds / 65536 ∉ range := fun hmem =>
          hnone _ _ (Decoded.worded_checked_of_mem 4 (hhigh ▸ hmem))
        exact ⟨fun hname => ⟨_, split_of_canName hmem hname⟩, split_of_not_canName hmem⟩
  · intro c
    exact ⟨_, fun other => by rw [Datum.decode_ofInts_toList]; rfl,
      Decoded.tells_checked range c 4⟩

/-- A clock that is a nanosecond short of the epoch and shows it by a negative
    count: nil decodes as the places do that the count is split into, of which
    the last is negative too. A clock that shows the same by a count in order
    is split into digits. -/
theorem Sample.routes_agree_before_epoch :
    (∃ found, outcome (Datum.nil.decode .fixnum) { tick := fun _ => ⟨0, -1⟩ }
        = (found, { tick := fun _ => ⟨0, -1⟩, taken := 1 }) ∧
      (∃ n, found = .ok (.success ⟨-1, 65535, 999999, 999000, by decide, by decide, by decide⟩ n)) ∧
      ∀ other, outcome ((Datum.ofInts [0, 0, 0, -1000]).decode .fixnum) other = (found, other)) ∧
    (∃ c, Sample.split .fixnum ⟨-1, 999999999⟩ = .ok c ∧
      (⟨-1, 65535, 999999, 999000, by decide, by decide, by decide⟩ : Timestamp).encode 4
        = .ok c.toList) := by
  constructor
  · rcases (routes_agree .fixnum ⟨0, -1⟩ { tick := fun _ => ⟨0, -1⟩ } rfl).1 with
      ⟨found, hfound, htells, -, hplaces, -⟩
    exact ⟨found, hfound, (htells.1 _).mpr rfl, hplaces ⟨0, 0, 0, -1000⟩ rfl⟩
  · rcases (routes_agree .fixnum ⟨-1, 999999999⟩ { tick := fun _ => ⟨-1, 999999999⟩ } rfl).1 with
      ⟨found, -, htells, -, -, hordered⟩
    rcases (htells.1 _).mpr rfl with ⟨n, hn⟩
    exact (hordered (by decide) (by decide)).2.1 _ n hn

/-- The first number of seconds that cannot be written has a high part far
    beyond the usual range, and with fewer digits. -/
theorem HighRange.ten_pow_not_mem_fixnum :
    (10 ^ numeralLimit / 65536 : Int) ∉ fixnum ∧ fixnum.CanName (10 ^ numeralLimit / 65536) := by
  have hten : 10 ^ 30 ≤ 10 ^ numeralLimit := Nat.pow_le_pow_right (by decide) (by decide)
  have hcast : (10 ^ numeralLimit : Int) = ((10 ^ numeralLimit : Nat) : Int) :=
    (Nat.cast_pow 10 numeralLimit).symm
  rw [CanName, hasNumeral_iff, hcast]
  generalize 10 ^ numeralLimit = p at hten
  refine ⟨fun hmem => ?_, ?_, rfl⟩
  · have hmax : (p : Int) / 65536 ≤ 2305843009213693951 := hmem.2
    omega
  · omega

/-- The first number of seconds that cannot be written. Decoding it as the
    current time says that it is out of range, and splitting it stops. -/
theorem Sample.split_stops :
    let s : Sample := ⟨10 ^ numeralLimit, 0⟩
    let high := s.seconds / 65536
    let clock : Clock := { tick := fun _ => s }
    outcome (Datum.nil.decode .fixnum) clock
        = (.ok (.failure .outOfRange (.highOutside high .fixnum) 4), clock.advance) ∧
      outcome (splitNow .fixnum) clock = (.error (.argument .integerTooLong), clock.advance) := by
  intro s high clock
  have hmem : high ∉ HighRange.fixnum := HighRange.ten_pow_not_mem_fixnum.1
  have hname : HighRange.fixnum.CanName high := HighRange.ten_pow_not_mem_fixnum.2
  have hlong : hasNumeral s.seconds = false := hasNumeral_ten_pow
  constructor
  · have hcarried : (Components.ofSample s).normalize.high = high :=
      s.high_normalize (le_refl 0) (by decide)
    rw [← hcarried] at hmem hname
    rw [Datum.outcome_decode_nil, ← hcarried]
    exact congrArg (·, clock.advance) (Decoded.worded_checked_of_canName 4 hmem hname)
  · exact congrArg (·, clock.advance) (split_of_not_canName hmem (HighRange.not_canName hlong _))

end PicoTime
