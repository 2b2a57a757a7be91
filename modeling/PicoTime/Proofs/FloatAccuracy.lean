import PicoTime.Proofs.Window

/-!
# Seconds There and Back

A timestamp is within seven picoseconds of the double it is made of, and its
seconds are put together again by rounded sums, of which all but the last are
no greater than the radix. Before the last rounding everything is off by less
than fifteen picoseconds, and what the last one does depends on the double. A
small one is missed by less than its own spacing, which is far below a
microsecond. From `2 ^ 20` on the doubles are so far apart that fifteen
picoseconds are less than a quarter of their spacing, and the last rounding
goes back to the very double that the timestamp was made of.

The last sum takes the seconds of the high digit, which could be beyond all
doubles. The digit of a small double is small. Large doubles are integers, of
which the digit is the exact quotient, a double itself, and nothing is carried
into it.

## Main definitions

* `Timestamp.fraction`, `Timestamp.belowHigh`: The seconds of a timestamp on
  the way, below the second and below the high digit.

## Theorems

* `Timestamp.rounds_fraction`, `Timestamp.rounds_belowHigh`,
  `Timestamp.exists_toFloat?`: What is rounded on the way, and last.
* `Timestamp.toFloat?_spec`: The seconds of a timestamp before the last
  rounding.
* `Components.exactHigh_normalize`: The high digit that a double gets.
* `Binary64.Rounds.recovers`: What is near a double is rounded back to it.
* `Timestamp.inSeconds_ofSeconds`: A double is found again.
-/

namespace PicoTime

open Binary64

namespace Timestamp

/-- The part of a second that the two lowest digits make. -/
def fraction (t : Timestamp) : Binary64 :=
  (ofInt t.micro * million + ofInt t.pico) / picosPerSecond

/-- The seconds below the high digit. -/
def belowHigh (t : Timestamp) : Binary64 :=
  t.fraction + ofInt t.low

/-- What is below the second is an integer number of picoseconds, and exact
    until it is divided. -/
theorem rounds_fraction (t : Timestamp) :
    t.fraction.Rounds (((t.micro * 1000000 + t.pico : Int) : Rat) / 1000000000000) := by
  rcases t.micro_mem with ⟨hmicroNonneg, hmicroLt⟩
  rcases t.pico_mem with ⟨hpicoNonneg, hpicoLt⟩
  have hmicro : (ofInt t.micro * million).Exactly ((t.micro * 1000000 : Int) : Rat) := by
    have hrounds := (exactly_ofInt t.micro (by rw [abs_of_nonneg] <;> omega)).mul million_spec
    exact Rounds.exactly_intCast (by exact_mod_cast hrounds) (by rw [abs_of_nonneg] <;> omega)
  have hcount : (ofInt t.micro * million + ofInt t.pico).Exactly
      ((t.micro * 1000000 + t.pico : Int) : Rat) := by
    have hrounds := hmicro.add (exactly_ofInt t.pico (by rw [abs_of_nonneg] <;> omega))
    exact Rounds.exactly_intCast (by exact_mod_cast hrounds) (by rw [abs_of_nonneg] <;> omega)
  exact hcount.div picosPerSecond_spec (by norm_num)

/-- The fraction is near the exact one, and no more than a second. -/
theorem fraction_spec (t : Timestamp) :
    t.fraction.Near ((2 : Rat) ^ (-54 : Int))
        (((t.micro * 1000000 + t.pico : Int) : Rat) / 1000000000000) ∧
      t.fraction.AtMost ((2 : Rat) ^ 0) := by
  have hsize : |((t.micro * 1000000 + t.pico : Int) : Rat) / 1000000000000| ≤ (2 : Rat) ^ 0 := by
    have hmicro := t.micro_mem
    have hpico := t.pico_mem
    have hle : |t.micro * 1000000 + t.pico| ≤ 1000000000000 := by rw [abs_of_nonneg] <;> omega
    rw [abs_div, abs_of_pos (by norm_num : (0 : Rat) < 1000000000000), pow_zero,
      div_le_one (by norm_num)]
    exact_mod_cast hle
  exact ⟨t.rounds_fraction.near 0 (by norm_num) hsize,
    t.rounds_fraction.atMost 0 (by norm_num) hsize⟩

/-- With the low digit the fraction is no more than the radix. -/
theorem rounds_belowHigh (t : Timestamp) :
    t.belowHigh.Rounds (t.fraction.value + t.low) ∧
      |t.fraction.value + t.low| ≤ (2 : Rat) ^ 16 := by
  rcases t.fraction_spec with ⟨-, hfraction⟩
  have hlow : |t.low| ≤ 65535 := by
    rcases t.low_mem with ⟨hnonneg, hlt⟩
    rw [abs_of_nonneg hnonneg]
    omega
  refine ⟨(exactly_of_isFinite t.fraction hfraction.1).add
    (exactly_ofInt t.low (hlow.trans (by norm_num))), ?_⟩
  have hcast : |(t.low : Rat)| ≤ 65535 := by exact_mod_cast hlow
  refine (abs_add_le _ _).trans ?_
  linarith [hfraction.2]

/-- The last sum takes the seconds of the high digit, which are exact. -/
theorem exists_toFloat? (t : Timestamp) (hhigh : ExactHigh t.high) :
    ∃ y, t.toFloat? = some y ∧ y.Rounds (t.belowHigh.value + t.high * 65536) := by
  rcases t.rounds_belowHigh with ⟨hrounds, hsize⟩
  refine ⟨t.belowHigh + ofInt t.high * lowRadix, ?_,
    (exactly_of_isFinite _ (hrounds.near 16 (by norm_num) hsize).1).add hhigh.2⟩
  rw [toFloat?, ofInt?_eq_some _ hhigh.1.1]
  rfl

/-- Up to the last rounding, the seconds of a timestamp are its picoseconds
    divided by their number in a second, but for two roundings of numbers that
    the radix and one bound. -/
theorem toFloat?_spec (t : Timestamp) (hhigh : ExactHigh t.high) :
    ∃ y sum, t.toFloat? = some y ∧ y.Rounds sum ∧
      |sum - t.picoseconds / 1000000000000| ≤ (2 : Rat) ^ (-38 : Int) + (2 : Rat) ^ (-54 : Int) := by
  rcases t.exists_toFloat? hhigh with ⟨y, hy, hlast⟩
  rcases t.rounds_belowHigh with ⟨hrounds, hsize⟩
  refine ⟨y, _, hy, hlast, ?_⟩
  have hfirst := abs_le.mp t.fraction_spec.1.2
  have hsecond := abs_le.mp (hrounds.near 16 (by norm_num) hsize).2
  norm_num at hfirst hsecond ⊢
  simp only [picoseconds]
  push_cast
  rw [abs_le]
  constructor <;> linarith

end Timestamp

namespace Components

/-- Only finite doubles have places. -/
theorem isFinite_of_ofFloat? {x : Binary64} {c : Components} (hc : ofFloat? x = some c) :
    x.isFinite = true := by
  rw [← (ofFloatChecked?_eq x).2, hc, Option.isSome_some]

/-- The high digit that a double gets is exact. -/
theorem exactHigh_normalize (x : Binary64) (c : Components) (hc : ofFloat? x = some c) :
    ExactHigh c.normalize.high := by
  rcases exists_ofFloatChecked? x (isFinite_of_ofFloat? hc) with
    ⟨_, -, hplaces, hcount, hhigh, hwhole⟩
  cases hc.symm.trans hplaces
  rcases x.integer_or_lt with ⟨n, hn⟩ | hsmall
  · -- Nothing is carried into the high digit.
    have hcarry : c.normalize.high = c.high := by
      rw [hwhole n hn]
      simp only [normalize]
      omega
    rw [hcarry]
    exact hhigh
  · refine exactHigh_of_le _ ?_
    have hcountLe : |c.picoseconds| ≤ 2 ^ 52 * 1000000000000 + 7 := by
      have hle : |(c.picoseconds : Rat)| ≤ 2 ^ 52 * 1000000000000 + 7 := by
        rw [abs_lt] at hsmall
        rw [abs_le] at hcount ⊢
        constructor <;> linarith
      exact_mod_cast hle
    have hsame := c.picoseconds_normalize
    have hlow := c.normalize.low_mem
    have hmicro := c.normalize.micro_mem
    have hpico := c.normalize.pico_mem
    generalize c.normalize = t at *
    simp only [Timestamp.picoseconds] at hsame
    rw [abs_le] at hcountLe ⊢
    omega

end Components

/-- Rounding what is near a double misses it by less than a microsecond, and
    from `2 ^ 20` on it does not miss it. -/
theorem Binary64.Rounds.recovers {x y : Binary64} {q : Rat} (h : y.Rounds q)
    (hx : x.isFinite = true) (hq : |q - x.value| < (2 : Rat) ^ (-34 : Int)) :
    y.isFinite = true ∧ |y.value - x.value| < 1 / 1000000 ∧
      ((2 : Rat) ^ 20 ≤ |x.value| → y = x) := by
  rcases le_or_gt ((2 : Rat) ^ 20) |x.value| with hlarge | hsmall
  · have heq := h.eq_of_near hx 20 hlarge hq
    subst heq
    exact ⟨hx, by rw [sub_self, abs_zero]; norm_num, fun _ => rfl⟩
  · have hsize : |q| ≤ (2 : Rat) ^ 21 := by
      rw [abs_lt] at hsmall hq
      norm_num at hsmall hq ⊢
      rw [abs_le]
      constructor <;> linarith
    rcases h.near 21 (by norm_num) hsize with ⟨hfinite, herror⟩
    refine ⟨hfinite, ?_, fun hlarge => absurd hlarge (not_le.mpr hsmall)⟩
    rw [abs_lt] at hq ⊢
    rw [abs_le] at herror
    norm_num at hq herror ⊢
    constructor <;> linarith

/-- A double that becomes a timestamp is found again to within a microsecond
    from the timestamp's seconds, and from `2 ^ 20` on it is found exactly. Only
    finite doubles become timestamps. -/
theorem Timestamp.inSeconds_ofSeconds (range : HighRange) (x : Binary64) (t : Timestamp)
    (h : ofSeconds range (.float x) = .ok t) :
    x.isFinite = true ∧ ∃ y, t.inSeconds = .ok y ∧ y.isFinite = true ∧
      |y.value - x.value| < 1 / 1000000 ∧ ((2 : Rat) ^ 20 ≤ |x.value| → y = x) := by
  rcases (ofSeconds_eq_ok_iff _ _ _).mp h with ⟨_, n, ⟨⟩, hd⟩
  rcases (Decoded.ofFloat_eq_success_iff _ _ _ _).mp hd with ⟨-, -, c, hc, rfl, -, -⟩
  have hx := Components.isFinite_of_ofFloat? hc
  rcases Components.exists_ofFloatChecked? x hx with ⟨_, -, hplaces, hcount, -, -⟩
  cases hc.symm.trans hplaces
  rcases toFloat?_spec c.normalize (c.exactHigh_normalize x hc) with ⟨y, sum, hy, hrounds, hsum⟩
  rw [c.picoseconds_normalize] at hsum
  have hnear : |sum - x.value| < (2 : Rat) ^ (-34 : Int) := by
    rw [abs_le] at hcount hsum
    norm_num at hsum ⊢
    rw [abs_lt]
    constructor <;> linarith
  exact ⟨hx, y, by rw [inSeconds, hy], hrounds.recovers hx hnear⟩

/-- A tenth of a second before the epoch, which is found again only nearly; and
    twelve days before it, not in whole seconds, which is found exactly. -/
theorem Timestamp.inSeconds_ofSeconds_before_epoch :
    (ofSeconds .fixnum (.float (ofBits 0xbfb999999999999a))
        = .ok ⟨-1, 65535, 900000, 1, by decide, by decide, by decide⟩ ∧
      ∃ y, inSeconds ⟨-1, 65535, 900000, 1, by decide, by decide, by decide⟩ = .ok y ∧
        |y.value - (ofBits 0xbfb999999999999a).value| < 1 / 1000000) ∧
    (ofSeconds .fixnum (.float (ofBits 0xc13000014ccccccd))
        = .ok ⟨-17, 65534, 699999, 999953, by decide, by decide, by decide⟩ ∧
      inSeconds ⟨-17, 65534, 699999, 999953, by decide, by decide, by decide⟩
        = .ok (ofBits 0xc13000014ccccccd)) := by
  have hsmall : ofSeconds .fixnum (.float (ofBits 0xbfb999999999999a))
      = .ok ⟨-1, 65535, 900000, 1, by decide, by decide, by decide⟩ := by
    rw [ofSeconds_eq_ok_iff]
    refine ⟨_, 4, rfl, ?_⟩
    rw [Decoded.ofFloat_eq_success_iff]
    exact ⟨HighRange.near_of_fixnumMin_le _ le_rfl, by decide +kernel,
      ⟨-1, 65535, 900000, 1⟩, by decide +kernel, rfl, by decide, rfl⟩
  have hlarge : ofSeconds .fixnum (.float (ofBits 0xc13000014ccccccd))
      = .ok ⟨-17, 65534, 699999, 999953, by decide, by decide, by decide⟩ := by
    rw [ofSeconds_eq_ok_iff]
    refine ⟨_, 4, rfl, ?_⟩
    rw [Decoded.ofFloat_eq_success_iff]
    exact ⟨HighRange.near_of_fixnumMin_le _ le_rfl, by decide +kernel,
      ⟨-17, 65534, 699999, 999953⟩, by decide +kernel, rfl, by decide, rfl⟩
  refine ⟨⟨hsmall, ?_⟩, hlarge, ?_⟩
  · rcases inSeconds_ofSeconds .fixnum _ _ hsmall with ⟨-, y, hy, -, herror, -⟩
    exact ⟨y, hy, herror⟩
  · rcases inSeconds_ofSeconds .fixnum _ _ hlarge with ⟨-, y, hy, -, -, hexact⟩
    rw [hy, hexact (by decide +kernel)]

end PicoTime
