import PicoTime.Proofs.Routes

/-!
# Down to the Nanosecond

The pair of seconds and nanoseconds that clocks speak of is a timestamp seen
from a coarser grid. Showing a timestamp as a sample rounds its count down to
nanoseconds and nothing else, on either side of the epoch, because only the
high digit has a sign and all that is cut off is at the end. So a sample that is
shown comes back, on both routes, as the timestamp without what was cut off, and
the range is asked about the same high digit before and after. The other way
round a sample loses nothing. It comes back with its nanoseconds carried into
the seconds, which is the only sample in order with that count.

A split is the view without carries. It keeps seconds and nanoseconds apart,
whatever their size, and the places below the second have the sign of the
nanoseconds, as a division toward zero leaves it. Being so split decides all
four places. Whether there is a split at all is a question about the seconds
alone, and it is the one that decoding asks of them. Only the refusals differ,
since that of a split names all of the seconds.

## Main definitions

* `Sample.InOrder`: Less than a second of nanoseconds, and none below zero.
* `Sample.carried`: The nanoseconds carried into the seconds.
* `Timestamp.atNanosecond`: A timestamp without what is below a nanosecond.
* `Components.IsSplit`: Places that hold a sample without carries.

## Theorems

* `Sample.eq_of_inOrder`: One count has one sample in order.
* `Timestamp.picoseconds_toSample`: A sample that is shown is rounded down.
* `Timestamp.normalize_toSample`, `Sample.toSample_normalize`: There and back,
  from either side.
* `Timestamp.ofSample_toSample`, `Timestamp.split_toSample`: Both ways back ask
  for the high digit.
* `Timestamp.toSample_floor`: Samples are timestamps rounded down.
* `Sample.isSplit_places`, `Components.IsSplit.unique`: The places of a sample
  hold it apart, and nothing else does.
* `Sample.split_isSplit`: When a sample can be split, and into what.
* `Sample.split_overflow_unnamed`: Seconds that are out of range, and no
  overflow.
-/

namespace PicoTime

/-! ## Samples in order -/

namespace Sample

/-- There is less than a second of nanoseconds, and none below zero. -/
def InOrder (s : Sample) : Prop :=
  0 ≤ s.nanoseconds ∧ s.nanoseconds < 1000000000

/-- The sample with its nanoseconds carried into the seconds, toward minus
    infinity. -/
def carried (s : Sample) : Sample where
  seconds := s.seconds + s.nanoseconds / 1000000000
  nanoseconds := s.nanoseconds % 1000000000

/-- Samples in order with one count are equal. -/
theorem eq_of_inOrder (a b : Sample) (ha : a.InOrder) (hb : b.InOrder)
    (h : a.picoseconds = b.picoseconds) : a = b := by
  rcases a with ⟨s, ns⟩
  rcases b with ⟨s', ns'⟩
  unfold InOrder at ha hb
  unfold picoseconds at h
  rw [Sample.mk.injEq]
  dsimp only at ha hb h
  omega

theorem inOrder_carried (s : Sample) : s.carried.InOrder := by
  unfold InOrder carried
  dsimp only
  omega

/-- Carrying keeps the count. -/
theorem picoseconds_carried (s : Sample) : s.carried.picoseconds = s.picoseconds := by
  unfold picoseconds carried
  dsimp only
  omega

end Sample

/-! ## There and back -/

namespace Timestamp

/-- The timestamp without what is below a nanosecond. -/
def atNanosecond (t : Timestamp) : Timestamp where
  high := t.high
  low := t.low
  micro := t.micro
  pico := t.pico / 1000 * 1000
  low_mem := t.low_mem
  micro_mem := t.micro_mem
  pico_mem := by
    have hpico := t.pico_mem
    omega

theorem inOrder_toSample (t : Timestamp) : t.toSample.InOrder := by
  have hmicro := t.micro_mem
  have hpico := t.pico_mem
  unfold Sample.InOrder toSample
  dsimp only
  omega

/-- The sample of a timestamp counts what is left without the end. -/
theorem picoseconds_toSample (t : Timestamp) :
    t.toSample.picoseconds = t.atNanosecond.picoseconds := by
  simp only [Sample.picoseconds, toSample, seconds, picoseconds, atNanosecond]
  ring

/-- What is left without the end is the count rounded down. -/
theorem picoseconds_atNanosecond (t : Timestamp) :
    t.atNanosecond.picoseconds = t.picoseconds / 1000 * 1000 := by
  simp only [picoseconds, atNanosecond]
  omega

/-- A timestamp comes back from its sample without the end. -/
theorem normalize_toSample (t : Timestamp) :
    (Components.ofSample t.toSample).normalize = t.atNanosecond := by
  apply ext_of_picoseconds
  rw [Components.picoseconds_normalize, Sample.picoseconds_ofSample, picoseconds_toSample]

/-- Making a timestamp of the sample asks for the high digit again. -/
theorem ofSample_toSample (range : HighRange) (t : Timestamp) :
    ofSample range t.toSample = if t.high ∈ range then .ok t.atNanosecond
      else .error (TimeError.outOfRange (.highOutside t.high range)).worded := by
  rw [ofSample, ofComponents, normalize_toSample]
  rfl

/-- So does splitting the sample, since its seconds have the high digit for
    their high part. -/
theorem split_toSample (range : HighRange) (t : Timestamp) :
    t.toSample.split range = if t.high ∈ range then .ok t.toSample.places
      else .error
        (TimeError.overflow (.secondsOutside t.toSample.seconds t.high range)).worded := by
  have hhigh : t.toSample.seconds / 65536 = t.high := by
    have hlow := t.low_mem
    simp only [toSample, seconds]
    omega
  by_cases hmem : t.high ∈ range
  · rw [if_pos hmem, Sample.split_of_mem (hhigh ▸ hmem)]
  · rw [if_neg hmem, Sample.split, highSeconds, hhigh, if_neg hmem]
    rfl

/-- The places of the sample decode to the timestamp without the end. -/
theorem decode_places_toSample (range : HighRange) (t : Timestamp) :
    (Datum.ofInts t.toSample.places.toList).decode range
      = liftM (Decoded.checked range t.atNanosecond 4).worded := by
  rw [Datum.decode_ofInts_toList, Sample.normalize_places, normalize_toSample]

end Timestamp

/-- A sample comes back from its timestamp with its nanoseconds carried. -/
theorem Sample.toSample_normalize (s : Sample) :
    (Components.ofSample s).normalize.toSample = s.carried := by
  apply eq_of_inOrder _ _ (Timestamp.inOrder_toSample _) s.inOrder_carried
  rw [Timestamp.picoseconds_toSample, Timestamp.picoseconds_atNanosecond,
    Components.picoseconds_normalize, picoseconds_ofSample, picoseconds_carried]
  -- The count of a sample has nothing below a nanosecond.
  unfold picoseconds
  omega

/-- Samples are timestamps rounded down, seen from both sides. The sample of a
    timestamp is in order, and its nanoseconds in all are the floor of the
    timestamp's count. Within a range that holds the high digit it comes back
    as the timestamp without what is below a nanosecond, made of the sample or
    decoded from the places it is split into. Within any other range neither way
    is open, and the refusal, as far as it can be put in words, names the high
    digit, on the second way next to the seconds. A sample that is a time within
    the range comes back from its timestamp with the nanoseconds carried into
    the seconds. -/
theorem Timestamp.toSample_floor (range : HighRange) :
    (∀ t : Timestamp,
      (0 ≤ t.toSample.nanoseconds ∧ t.toSample.nanoseconds < 1000000000) ∧
      t.toSample.seconds * 1000000000 + t.toSample.nanoseconds = t.picoseconds / 1000 ∧
      (t.high ∈ range → ofSample range t.toSample = .ok t.atNanosecond ∧
        ∃ c, t.toSample.split range = .ok c ∧
          (Datum.ofInts c.toList).decode range = pure (.success t.atNanosecond 4)) ∧
      (t.high ∉ range →
        ofSample range t.toSample
          = .error (TimeError.outOfRange (.highOutside t.high range)).worded ∧
        t.toSample.split range = .error
          (TimeError.overflow (.secondsOutside t.toSample.seconds t.high range)).worded)) ∧
    ∀ (s : Sample) (t : Timestamp), ofSample range s = .ok t →
      t.toSample = ⟨s.seconds + s.nanoseconds / 1000000000, s.nanoseconds % 1000000000⟩ := by
  refine ⟨fun t => ⟨t.inOrder_toSample, ?_, fun hmem => ?_, fun hmem => ?_⟩, fun s t h => ?_⟩
  · have hcount := t.picoseconds_toSample.trans t.picoseconds_atNanosecond
    unfold Sample.picoseconds at hcount
    omega
  · -- The end that is cut off leaves the high digit alone.
    have hshown : t.atNanosecond.high ∈ range := hmem
    rw [ofSample_toSample, split_toSample, if_pos hmem, if_pos hmem]
    refine ⟨rfl, _, rfl, ?_⟩
    rw [decode_places_toSample, Decoded.worded_checked_of_mem 4 hshown]
    rfl
  · rw [ofSample_toSample, split_toSample, if_neg hmem, if_neg hmem]
    exact ⟨rfl, rfl⟩
  · unfold ofSample ofComponents at h
    dsimp only at h
    split_ifs at h
    rw [Except.ok.injEq] at h
    rw [← h]
    exact s.toSample_normalize

/-- The last picosecond before the epoch is shown as the last nanosecond, and
    comes back from it as that within the two high digits around the epoch. A
    nanosecond less than nothing comes back as the same. -/
theorem Timestamp.toSample_floor_before_epoch :
    let range : HighRange := ⟨-1, 0, by decide, by decide⟩
    let last : Timestamp := ⟨-1, 65535, 999999, 999999, by decide, by decide, by decide⟩
    let shown : Timestamp := ⟨-1, 65535, 999999, 999000, by decide, by decide, by decide⟩
    last.high ∈ range ∧ last.toSample = ⟨-1, 999999999⟩ ∧
      ofSample range ⟨-1, 999999999⟩ = .ok shown ∧
      (∃ c, Sample.split range ⟨-1, 999999999⟩ = .ok c ∧
        (Datum.ofInts c.toList).decode range = pure (.success shown 4)) ∧
      ofSample range ⟨0, -1⟩ = .ok shown ∧ shown.toSample = ⟨-1, 999999999⟩ := by
  intro range last shown
  have hmem : last.high ∈ range := by decide
  have hcarried : ofSample range ⟨0, -1⟩ = .ok shown := rfl
  rcases toSample_floor range with ⟨hfloor, hback⟩
  rcases (hfloor last).2.2.1 hmem with ⟨hshown, hsplit⟩
  exact ⟨hmem, rfl, hshown, hsplit, hcarried, hback ⟨0, -1⟩ shown hcarried⟩

/-! ## Without carries -/

/-- The places hold the seconds and the nanoseconds of a sample apart: high and
    low part of the seconds, and microseconds and whole nanoseconds that have
    the sign of the nanoseconds, less than a microsecond of the latter. -/
structure Components.IsSplit (s : Sample) (c : Components) : Prop where
  seconds : c.high * 65536 + c.low = s.seconds
  low : 0 ≤ c.low ∧ c.low < 65536
  nanoseconds : c.micro * 1000000 + c.pico = s.nanoseconds * 1000
  pico : |c.pico| < 1000000
  dvd_pico : 1000 ∣ c.pico
  nonneg : 0 ≤ s.nanoseconds → 0 ≤ c.micro ∧ 0 ≤ c.pico
  nonpos : s.nanoseconds ≤ 0 → c.micro ≤ 0 ∧ c.pico ≤ 0

/-- Two ways to hold a sample apart are the same. -/
theorem Components.IsSplit.unique {s : Sample} {c d : Components} (hc : c.IsSplit s)
    (hd : d.IsSplit s) : c = d := by
  rcases c with ⟨high, low, micro, pico⟩
  rcases d with ⟨high', low', micro', pico'⟩
  rcases hc with ⟨hseconds, hlow, hnanoseconds, hpico, -, hnonneg, hnonpos⟩
  rcases hd with ⟨hseconds', hlow', hnanoseconds', hpico', -, hnonneg', hnonpos'⟩
  dsimp only at *
  rw [abs_lt] at hpico hpico'
  rw [Components.mk.injEq]
  -- The sign of the nanoseconds decides between the two multiples of a microsecond next to them.
  rcases le_total 0 s.nanoseconds with hsign | hsign
  · have hsigns := hnonneg hsign
    have hsigns' := hnonneg' hsign
    omega
  · have hsigns := hnonpos hsign
    have hsigns' := hnonpos' hsign
    omega

/-- A division toward zero has quotient and remainder on the side of the
    dividend. -/
theorem tdiv_tmod_sameSide (n : Int) :
    (0 ≤ n → 0 ≤ n.tdiv 1000 ∧ 0 ≤ n.tmod 1000) ∧ (n ≤ 0 → n.tdiv 1000 ≤ 0 ∧ n.tmod 1000 ≤ 0) := by
  refine ⟨fun h => ⟨Int.tdiv_nonneg h (by decide), Int.tmod_nonneg 1000 h⟩, fun h => ?_⟩
  have hquotient := Int.tdiv_nonneg (neg_nonneg.mpr h) (by decide : (0 : Int) ≤ 1000)
  have hrest := Int.tmod_nonneg 1000 (neg_nonneg.mpr h)
  rw [Int.neg_tdiv] at hquotient
  rw [Int.neg_tmod] at hrest
  exact ⟨neg_nonneg.mp hquotient, neg_nonneg.mp hrest⟩

/-- The places of a sample hold it apart. -/
theorem Sample.isSplit_places (s : Sample) : s.places.IsSplit s := by
  have hsplit := Int.mul_tdiv_add_tmod s.nanoseconds 1000
  have hlt := Int.tmod_lt_of_pos s.nanoseconds (by decide : (0 : Int) < 1000)
  have hgt := Int.lt_tmod_of_pos s.nanoseconds (by decide : (0 : Int) < 1000)
  rcases tdiv_tmod_sameSide s.nanoseconds with ⟨hnonneg, hnonpos⟩
  refine ⟨?_, ?_, ?_, ?_, Dvd.intro_left _ rfl, fun h => ?_, fun h => ?_⟩
  all_goals simp only [places, lowSeconds, abs_lt]
  · omega
  · omega
  · omega
  · omega
  · have hsigns := hnonneg h
    omega
  · have hsigns := hnonpos h
    omega

/-- When a sample can be split, and into what. It cannot exactly if its seconds,
    offered as a time, are out of range. It is an overflow then, provided that
    the seconds and the range can be named. Otherwise splitting it stops, and
    that may be where decoding the seconds does not, which has to name only
    their high part. Seconds in the range are split into places that hold
    seconds and nanoseconds apart, which nothing else does, and that count them
    both, however many nanoseconds there are and on whichever side of zero. -/
theorem Sample.split_isSplit (range : HighRange) (s : Sample) :
    ∃ d : Decoded, (Datum.int s.seconds).decode range = liftM d.worded ∧
      (d.kind? = some .outOfRange ↔ s.seconds / 65536 ∉ range) ∧
      (d.isShowable = true ↔ s.seconds / 65536 ∈ range ∨ range.CanName (s.seconds / 65536)) ∧
      ((∃ cause, s.split range = .error (.time (.overflow cause)))
        ↔ d.kind? = some .outOfRange ∧ range.CanName s.seconds) ∧
      (s.split range = .error (.argument .integerTooLong)
        ↔ d.kind? = some .outOfRange ∧ ¬ range.CanName s.seconds) ∧
      (d.kind? ≠ some .outOfRange → ∃ c, s.split range = .ok c ∧ c.IsSplit s ∧
        (∀ other : Components, other.IsSplit s → other = c) ∧
        c.picoseconds = s.seconds * 1000000000000 + s.nanoseconds * 1000) := by
  refine ⟨_, Datum.decode_int range s.seconds, ?_⟩
  rw [Decoded.kind?_checked, Decoded.isShowable_checked,
    show (Timestamp.ofWhole s.seconds).high = s.seconds / 65536 from rfl]
  -- Both look at the high part of the seconds.
  by_cases hmem : s.seconds / 65536 ∈ range
  · rw [split_of_mem hmem, if_pos hmem]
    refine ⟨iff_of_false nofun (not_not_intro hmem), Iff.rfl,
      iff_of_false ?_ (fun h => nomatch h.1), iff_of_false nofun (fun h => nomatch h.1),
      fun _ => ⟨s.places, rfl, s.isSplit_places,
        fun _ hother => hother.unique s.isSplit_places, s.picoseconds_places⟩⟩
    rintro ⟨_, ⟨⟩⟩
  rw [if_neg hmem]
  refine ⟨iff_of_true rfl hmem, Iff.rfl, ?_, ?_, fun h => absurd rfl h⟩
  all_goals by_cases hname : range.CanName s.seconds
  · rw [split_of_canName hmem hname]
    exact iff_of_true ⟨_, rfl⟩ ⟨rfl, hname⟩
  · rw [split_of_not_canName hmem hname]
    exact iff_of_false (fun ⟨_, h⟩ => nomatch h) fun h => hname h.2
  · rw [split_of_canName hmem hname]
    exact iff_of_false nofun fun h => h.2 hname
  · rw [split_of_not_canName hmem hname]
    exact iff_of_true rfl ⟨rfl, hname⟩

/-- A second before the epoch and five seconds and a nanosecond before that.
    Within the two high digits around the epoch they are split without carries,
    into places of which the two lowest are negative. A day and a half after the
    epoch is refused, split or decoded. -/
theorem Sample.split_isSplit_around_epoch :
    let range : HighRange := ⟨-1, 0, by decide, by decide⟩
    let places : Components := ⟨-1, 65535, -5000000, -1000⟩
    Sample.split range ⟨-1, -5000000001⟩ = .ok places ∧ places.IsSplit ⟨-1, -5000000001⟩ ∧
      places.picoseconds = -6000000001000 ∧
      (∃ cause, Sample.split range ⟨131072, 1⟩ = .error (.time (.overflow cause))) ∧
      ∃ d : Decoded, (Datum.int 131072).decode range = liftM d.worded ∧
        d.kind? = some .outOfRange := by
  intro range places
  have hplaces : Sample.split range ⟨-1, -5000000001⟩ = .ok places := rfl
  rcases split_isSplit range ⟨-1, -5000000001⟩ with ⟨d, -, hin, -, -, -, hsplit⟩
  rcases hsplit (fun hkind => hin.mp hkind (by decide)) with ⟨c, hc, hheld, -, hcount⟩
  rw [hplaces, Except.ok.injEq] at hc
  rw [← hc] at hheld hcount
  rcases split_isSplit range ⟨131072, 1⟩ with ⟨d', hd', hout, -, hover, -⟩
  have hkind : d'.kind? = some .outOfRange := hout.mpr (by decide)
  exact ⟨hplaces, hheld, hcount, hover.mpr ⟨hkind, by decide⟩, d', hd', hkind⟩

/-- The first number of seconds that cannot be written is out of range when it
    is decoded, and splitting it is no overflow. -/
theorem Sample.split_overflow_unnamed :
    let s : Sample := ⟨10 ^ numeralLimit, 1⟩
    (Datum.int s.seconds).decode .fixnum
        = pure (.failure .outOfRange (.highOutside (s.seconds / 65536) .fixnum) 2) ∧
      s.split .fixnum = .error (.argument .integerTooLong) ∧
      ¬ ∃ cause, s.split .fixnum = .error (.time (.overflow cause)) := by
  intro s
  rcases HighRange.ten_pow_not_mem_fixnum with ⟨hmem, hname⟩
  have hlong : hasNumeral s.seconds = false := hasNumeral_ten_pow
  have hsplit := split_of_not_canName hmem (HighRange.not_canName hlong .fixnum)
  have hchecked : (Decoded.checked .fixnum (.ofWhole s.seconds) 2).worded
      = .ok (.failure .outOfRange (.highOutside (s.seconds / 65536) .fixnum) 2) :=
    Decoded.worded_checked_of_canName 2 hmem hname
  refine ⟨?_, hsplit, ?_⟩
  · rw [Datum.decode_int, hchecked]
    rfl
  · rintro ⟨cause, hcause⟩
    rw [hsplit] at hcause
    cases hcause

end PicoTime
