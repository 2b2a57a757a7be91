import PicoTime.Proofs.FloatAccuracy
import PicoTime.Proofs.Refusal
import PicoTime.Proofs.Routes

/-!
# The Accuracy of Seconds

Seconds in double precision come about in two ways. Those of a timestamp are
put together from its digits, by three rounded sums and a quotient; those of a
clock from its seconds and nanoseconds, by one of each. What is compared with
them is the exact rational that a count of picoseconds stands for.

In both ways everything before the last sum is small or an integer, so up to
there the error is a matter of picoseconds, whatever the number. The last sum
is rounded once more, to within its size times `2 ^ -53`, and this part of the
error grows with the number itself and not with what it is put together from.
That matters for a span of time that is slightly negative. Its high digit is
minus one and its other digits are as large as they get; nearly all of it
cancels in the last sum, and what is left is as accurate as the digits were.

An elapsed time is a difference of two data that is written as places and
converted again. Writing and decoding lose nothing, so the accuracy is that of
the timestamp. And the current time as a double may be had by splitting it
into places first or directly: either is near the one exact number of seconds,
so they are near each other.

## Main definitions

* `exactSeconds`: A count of picoseconds as an exact number of seconds.
* `Binary64.Accurate`: A double that is near an exact number of seconds.

## Theorems

* `Binary64.Rounds.accurate`: The last rounding keeps the accuracy.
* `Timestamp.accurate_inSeconds`: The seconds of a timestamp are accurate.
* `Sample.accurate_inSeconds`: So are those of a sample.
* `Datum.exists_of_subtract`: What the difference of two data decodes to.
* `Datum.inSeconds_subtract`: Elapsed time is accurate.
* `Datum.inSeconds_splitNow`: Both ways to the current time agree.
-/

namespace PicoTime

open Binary64

/-- A count of picoseconds as an exact number of seconds. -/
def exactSeconds (count : Int) : Rat :=
  count / 1000000000000

theorem abs_exactSeconds_le {count : Int} (k : Nat) (h : |count| ≤ 2 ^ k * 1000000000000) :
    |exactSeconds count| ≤ (2 : Rat) ^ k := by
  rw [exactSeconds, abs_div, abs_of_pos (by norm_num : (0 : Rat) < 1000000000000),
    div_le_iff₀ (by norm_num)]
  exact_mod_cast h

namespace Binary64

/-- The double is finite and near the number of seconds: no further from it
    than eight picoseconds and, beyond that, the part of it that rounding
    takes. -/
def Accurate (d : Rat) (x : Binary64) : Prop :=
  x.Near ((2 : Rat) ^ (-37 : Int) + (2 : Rat) ^ (-53 : Int) * |d|) d

/-- What is near a number before the last rounding is accurate after it. -/
theorem Rounds.accurate {y : Binary64} {sum d : Rat} (h : y.Rounds sum)
    (hsum : |sum - d| ≤ (2 : Rat) ^ (-38 : Int) + (2 : Rat) ^ (-54 : Int))
    (hd : |d| ≤ (2 : Rat) ^ 1021) : y.Accurate d := by
  have hone : |sum - d| ≤ 1 := hsum.trans (by norm_num)
  have hsumLe : |sum| ≤ 1 + |d| := by
    have htriangle := abs_sub_abs_le_abs_sub sum d
    linarith
  have hsize : |sum| ≤ (2 : Rat) ^ 1022 := by
    rw [pow_succ, mul_two]
    exact hsumLe.trans (add_le_add (one_le_pow₀ one_le_two) hd)
  rcases h.near_max hsize with ⟨hfinite, hlast⟩
  refine ⟨hfinite, ?_⟩
  -- A number below one is off by no more than one would be.
  have hmax : max 1 |sum| ≤ 1 + |d| := max_le (le_add_of_nonneg_right (abs_nonneg d)) hsumLe
  have hlastLe := hlast.trans (mul_le_mul_of_nonneg_left hmax (by positivity))
  refine (abs_sub_le y.value sum d).trans ?_
  norm_num at hlastLe hsum ⊢
  linarith

end Binary64

/-! ## Timestamps and samples -/

/-- The seconds of a timestamp are accurate while its high digit is a
    double. -/
theorem Timestamp.accurate_inSeconds (t : Timestamp) (hhigh : |t.high| ≤ 2 ^ 53) :
    ∃ y, t.inSeconds = .ok y ∧ y.Accurate (exactSeconds t.picoseconds) := by
  rcases t.toFloat?_spec (exactHigh_of_le t.high hhigh) with ⟨y, sum, hy, hrounds, hsum⟩
  -- How large the count is matters only in that the last sum stays finite.
  have hcount : |t.picoseconds| ≤ 2 ^ 70 * 1000000000000 := by
    have hlow := t.low_mem
    have hmicro := t.micro_mem
    have hpico := t.pico_mem
    rw [abs_le] at hhigh ⊢
    unfold picoseconds
    omega
  exact ⟨y, by rw [inSeconds, hy], hrounds.accurate hsum ((abs_exactSeconds_le 70 hcount).trans
    (pow_le_pow_right₀ one_le_two (by norm_num)))⟩

/-- The seconds of a sample are accurate while they are a double and its clock
    is in order. -/
theorem Sample.accurate_inSeconds (s : Sample) (hseconds : |s.seconds| ≤ 2 ^ 53)
    (hnonneg : 0 ≤ s.nanoseconds) (hlt : s.nanoseconds < 1000000000) :
    ∃ y, s.inSeconds = .ok y ∧ y.Accurate (exactSeconds s.picoseconds) := by
  rcases s.exists_quotient hnonneg hlt with ⟨fraction, hfraction, hfinite, hnear⟩
  have hwhole := exactly_ofInt s.seconds hseconds
  have hexact : exactSeconds s.picoseconds = s.seconds + s.nanoseconds / 1000000000 := by
    simp only [exactSeconds, picoseconds]
    push_cast
    ring
  have hcount : |s.picoseconds| ≤ 2 ^ 54 * 1000000000000 := by
    rw [abs_le] at hseconds ⊢
    unfold picoseconds
    omega
  refine ⟨ofInt s.seconds + fraction, by rw [inSeconds, hfraction, ofInt?_eq_some _ hwhole.1],
    (hwhole.add (exactly_of_isFinite fraction hfinite)).accurate ?_
      ((abs_exactSeconds_le 54 hcount).trans (pow_le_pow_right₀ one_le_two (by norm_num)))⟩
  -- Only the quotient has been rounded before the sum.
  rw [hexact, add_sub_add_left_eq_sub]
  exact hnear.trans (by norm_num)

/-! ## Data -/

namespace Datum

/-- The difference of two data is written so that it decodes to the difference
    of their timestamps. -/
theorem exists_of_subtract (range : HighRange) (a b : Datum) (before after : Clock)
    (ns : List Int) (h : Returns (a.subtract range b) before ns after) :
    ∃ s m between t n, Returns (a.decode range) before (.success s m) between ∧
      Returns (b.decode range) between (.success t n) after ∧
      (s - t).encode (max m n) = .ok ns ∧
      (ofInts ns).decode range = pure (.success (s - t) (max m n)) := by
  rcases exists_of_combine Timestamp.subWithin range a b before after ns h with
    ⟨s, m, between, t, n, result, hs, ht, hop, henc, hdvds, hdvdt⟩
  rcases of_within_eq_ok range s t _ result hop with ⟨rfl, hmem⟩
  have hlength := ((Timestamp.encode_eq_ok_iff _ _ _).mp henc).1
  -- The unit of the places divides both counts, so nothing of the difference is cut off.
  have hdvd : Timestamp.resolution (max m n) ∣ (s - t).picoseconds := by
    rw [Timestamp.picoseconds_sub]
    exact Int.dvd_sub hdvds hdvdt
  have hkeep := (Timestamp.truncate_eq_self_iff _ _ hlength).mpr hdvd
  refine ⟨s, m, between, t, n, (returns_resolve _ _ _ _ _ _).mp hs,
    (returns_resolve _ _ _ _ _ _).mp ht, henc, ?_⟩
  rw [decode_ofInts_of_encode range _ _ ns henc, hkeep, Decoded.worded_checked_of_mem _ hmem]
  rfl

/-- A list of integers that decodes to a timestamp has the timestamp's
    seconds. -/
theorem gives_inSeconds_ofInts (range : HighRange) (ns : List Int) (t : Timestamp) (n : Int)
    (x : Binary64) (h : (ofInts ns).decode range = pure (.success t n)) (hx : t.inSeconds = .ok x) :
    Gives ((ofInts ns).inSeconds range) (.ok x) := by
  refine gives_inSeconds_of_ok range (ofInts ns) nofun nofun (t := t) (n := n) ?_ hx
  unfold resolve
  rw [h]
  exact fun clock => rfl

/-- Elapsed time is accurate. If the difference of two data is returned and
    its high digit is a double, then it converts to seconds, within the same
    range and at any clock, and the double is off from the exact difference of
    the two decoded times by `2 ^ -37` seconds at most and `2 ^ -53` times the
    difference. -/
theorem inSeconds_subtract (range : HighRange) (a b : Datum) (before after : Clock)
    (ns : List Int) (h : Returns (a.subtract range b) before ns after)
    (hhigh : ∀ high ∈ ns.head?, |high| ≤ 2 ^ 53) :
    ∃ s m between t n y, Returns (a.decode range) before (.success s m) between ∧
      Returns (b.decode range) between (.success t n) after ∧
      Gives ((ofInts ns).inSeconds range) (.ok y) ∧ y.isFinite = true ∧
      |y.value - exactSeconds (s.picoseconds - t.picoseconds)|
        ≤ (2 : Rat) ^ (-37 : Int)
          + (2 : Rat) ^ (-53 : Int) * |exactSeconds (s.picoseconds - t.picoseconds)| := by
  rcases exists_of_subtract range a b before after ns h with
    ⟨s, m, between, t, n, hs, ht, henc, hdecode⟩
  -- Places that are cut off leave the high digit, which the bound is about.
  have hhead := (Timestamp.areDigits_of_encode _ _ _ henc).2.2
  rcases (s - t).accurate_inSeconds (hhigh _ hhead) with ⟨y, hy, hfinite, herror⟩
  rw [Timestamp.picoseconds_sub] at herror
  exact ⟨s, m, between, t, n, y, hs, ht, gives_inSeconds_ofInts range ns _ _ y hdecode hy, hfinite,
    herror⟩

/-- A picosecond less than what the clock shows, minus the current time, is
    written with high digit minus one and the largest other digits. All but a
    picosecond cancels, and its seconds are still accurate. -/
theorem inSeconds_subtract_cancelling :
    let a := Datum.sequence .square [.int 0, .int 5, .int 999999, .int 999999]
    let clock : Clock := { tick := fun _ => ⟨6, 0⟩ }
    Returns (a.subtract .fixnum .nil) clock [-1, 65535, 999999, 999999] clock.advance ∧
      ∃ y, Gives ((ofInts [-1, 65535, 999999, 999999]).inSeconds .fixnum) (.ok y) ∧
        |y.value - exactSeconds (-1)|
          ≤ (2 : Rat) ^ (-37 : Int) + (2 : Rat) ^ (-53 : Int) * |exactSeconds (-1)| := by
  intro a clock
  have hsub : Returns (a.subtract .fixnum .nil) clock [-1, 65535, 999999, 999999] clock.advance :=
    rfl
  rcases inSeconds_subtract .fixnum a .nil clock clock.advance [-1, 65535, 999999, 999999] hsub
    (by decide) with ⟨s, m, between, t, n, y, hs, ht, hy, -, herror⟩
  let earlier : Timestamp := { high := 0, low := 5, micro := 999999, pico := 999999 }
  let now : Timestamp := { high := 0, low := 6, micro := 0, pico := 0 }
  rcases returns_unique _ _ _ _ _ _ hs
    (rfl : Returns (a.decode .fixnum) clock (.success earlier 4) clock) with ⟨hearlier, rfl⟩
  rcases returns_unique _ _ _ _ _ _ ht
    (rfl : Returns (Datum.nil.decode .fixnum) clock (.success now 4) clock.advance)
    with ⟨hlater, -⟩
  cases hearlier
  cases hlater
  exact ⟨hsub, y, hy, herror⟩

/-- Both ways to the current time as a double agree. One splits the sample into
    places and converts these, the other adds the nanoseconds to the seconds
    directly. From a clock in order that shows less than `2 ^ 32` seconds on
    either side of the epoch, within a range that holds their high part, both
    return a finite double after one sample, and the two are less than a
    microsecond apart. -/
theorem inSeconds_splitNow (range : HighRange) (clock : Clock)
    (hseconds : |clock.next.seconds| < 2 ^ 32) (hnonneg : 0 ≤ clock.next.nanoseconds)
    (hlt : clock.next.nanoseconds < 1000000000) (hfits : clock.next.seconds / 65536 ∈ range) :
    ∃ x y, Returns (do
          let c ← splitNow range
          (ofInts c.toList).inSeconds range) clock x clock.advance ∧
      Returns (Datum.nil.inSeconds range) clock y clock.advance ∧
      x.isFinite = true ∧ y.isFinite = true ∧ |x.value - y.value| < 1 / 1000000 := by
  generalize hnow : clock.next = s at *
  have hdigits := s.high_normalize hnonneg hlt
  rw [← Sample.normalize_places] at hdigits
  -- The split decodes to the timestamp of the sample.
  have hdecode : (ofInts s.places.toList).decode range
      = pure (.success s.places.normalize 4) := by
    rw [decode_ofInts_toList, Decoded.worded_checked_of_mem 4 (hdigits ▸ hfits)]
    rfl
  have hhigh : |s.places.normalize.high| ≤ 2 ^ 53 := by
    rw [abs_lt] at hseconds
    rw [hdigits, abs_le]
    omega
  rcases s.places.normalize.accurate_inSeconds hhigh with ⟨x, hx, hxfinite, hxnear⟩
  rcases s.accurate_inSeconds (hseconds.le.trans (by norm_num)) hnonneg hlt
    with ⟨y, hy, hyfinite, hynear⟩
  rw [Components.picoseconds_normalize, Sample.picoseconds_places] at hxnear
  have hsplit : Returns (splitNow range) clock s.places clock.advance := by
    change (clock.next.split range, clock.advance) = (.ok s.places, clock.advance)
    rw [hnow, Sample.split_of_mem hfits]
  have hcount : |exactSeconds s.picoseconds| ≤ (2 : Rat) ^ 32 := by
    apply abs_exactSeconds_le 32
    rw [abs_lt] at hseconds
    rw [abs_le, Sample.picoseconds]
    omega
  refine ⟨x, y, ?_, ?_, hxfinite, hyfinite, ?_⟩
  · exact (returns_bind _ _ _ _ _).mpr ⟨s.places, clock.advance, hsplit,
      gives_inSeconds_ofInts range _ _ _ x hdecode hx clock.advance⟩
  · change (orFault clock.next.inSeconds, clock.advance) = (.ok y, clock.advance)
    rw [hnow, hy]
    rfl
  · -- Either is off by less than half a microsecond.
    have hapart := abs_sub_le x.value (exactSeconds s.picoseconds) y.value
    rw [abs_sub_comm (exactSeconds s.picoseconds)] at hapart
    norm_num at hxnear hynear hcount hapart ⊢
    linarith

/-- They agree about the last nanosecond before the epoch, within the two high
    digits around it. -/
theorem inSeconds_splitNow_before_epoch :
    let range : HighRange := ⟨-1, 0, by decide, by decide⟩
    let clock : Clock := { tick := fun _ => ⟨-1, 999999999⟩ }
    |clock.next.seconds| < 2 ^ 32 ∧ 0 ≤ clock.next.nanoseconds ∧
      clock.next.nanoseconds < 1000000000 ∧ clock.next.seconds / 65536 ∈ range ∧
      Returns (splitNow range) clock ⟨-1, 65535, 999999, 999000⟩ clock.advance ∧
      ∃ x y, Returns (do
          let c ← splitNow range
          (ofInts c.toList).inSeconds range) clock x clock.advance ∧
        Returns (Datum.nil.inSeconds range) clock y clock.advance ∧
        x.isFinite = true ∧ y.isFinite = true ∧ |x.value - y.value| < 1 / 1000000 := by
  intro range clock
  have hseconds : |clock.next.seconds| < 2 ^ 32 := by decide
  have hnonneg : 0 ≤ clock.next.nanoseconds := by decide
  have hlt : clock.next.nanoseconds < 1000000000 := by decide
  have hfits : clock.next.seconds / 65536 ∈ range := by decide
  exact ⟨hseconds, hnonneg, hlt, hfits, rfl,
    inSeconds_splitNow range clock hseconds hnonneg hlt hfits⟩

end Datum

end PicoTime
