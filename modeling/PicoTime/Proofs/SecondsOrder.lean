import PicoTime.Proofs.FloatAccuracy
import PicoTime.Proofs.Grid

/-!
# The Order of Seconds

The seconds of a timestamp in double precision are rounded three times on the
way, and none of the roundings exchanges two timestamps. A rounding alone never
does, but what is rounded is a sum, of which the later timestamp may have the
smaller part: its digit is greater and what is below the digit is not.

What is below a digit is never more than the digit's unit, even rounded. A
fraction is rounded to a whole second at most, and with the low seconds it is
rounded to the radix at most. So one unit more in a digit makes up for all that
is below it, and where the digits are the same the parts below decide, whose
order was kept before. That is said once, in `add_digit_le`, and used for the
low seconds and for the high digit. Below zero nothing changes, since only the
high digit has a sign.

The high digit itself must not be rounded. It is a double up to `2 ^ 53`, and
the next one below zero already loses the order.

## Theorems

* `Binary64.le_eq_true_iff`: Finite doubles compare as their values.
* `add_digit_le`: A greater digit makes up for what is below it.
* `Timestamp.digits_of_picoseconds_le`: Counts are compared digit by digit.
* `Timestamp.fraction_mem`, `Timestamp.fraction_mono`: The part below the
  second.
* `Timestamp.belowHigh_mem`, `Timestamp.belowHigh_mono`: The part below the
  high digit.
* `Timestamp.inSeconds_mono`: Seconds keep the order of timestamps.
-/

namespace PicoTime

open Binary64

/-- Finite doubles compare as their values. -/
theorem Binary64.le_eq_true_iff {x y : Binary64} (hx : x.isFinite = true)
    (hy : y.isFinite = true) : x.le y = true ↔ x.value ≤ y.value := by
  cases x with
  | nan _ | infinite _ => cases hx
  | finite _ _ =>
      cases y with
      | nan _ | infinite _ => cases hy
      | finite _ _ => exact decide_eq_true_iff

/-- A greater digit makes up for what is below it, as long as that is no more
    than the unit of the digit. -/
theorem add_digit_le {below below' unit : Rat} {digit digit' : Int} (hunit : 0 ≤ unit)
    (hmost : below ≤ unit) (hnonneg : 0 ≤ below')
    (h : digit < digit' ∨ digit = digit' ∧ below ≤ below') :
    below + digit * unit ≤ below' + digit' * unit := by
  rcases h with hlt | ⟨rfl, hle⟩
  · have hnext : (digit : Rat) + 1 ≤ digit' := by exact_mod_cast hlt
    calc below + digit * unit ≤ unit + digit * unit := add_le_add_left hmost _
      _ = (digit + 1) * unit := by ring
      _ ≤ digit' * unit := mul_le_mul_of_nonneg_right hnext hunit
      _ ≤ below' + digit' * unit := le_add_of_nonneg_left hnonneg
  · exact add_le_add_left hle _

namespace Timestamp

/-- Counts are compared digit by digit, from the top. The two below the second
    count as one. -/
theorem digits_of_picoseconds_le (a b : Timestamp) (h : a.picoseconds ≤ b.picoseconds) :
    a.high < b.high ∨ a.high = b.high ∧ (a.low < b.low ∨ a.low = b.low ∧
      a.micro * 1000000 + a.pico ≤ b.micro * 1000000 + b.pico) := by
  have halow := a.low_mem
  have hamicro := a.micro_mem
  have hapico := a.pico_mem
  have hblow := b.low_mem
  have hbmicro := b.micro_mem
  have hbpico := b.pico_mem
  unfold picoseconds at h
  omega

/-! ## Below the second -/

/-- The fraction is not negative, and may be rounded to a whole second. -/
theorem fraction_mem (t : Timestamp) : 0 ≤ t.fraction.value ∧ t.fraction.value ≤ 1 := by
  have hmicro := t.micro_mem
  have hpico := t.pico_mem
  have hcount : (0 : Rat) ≤ ((t.micro * 1000000 + t.pico : Int) : Rat) := by
    exact_mod_cast (by omega : 0 ≤ t.micro * 1000000 + t.pico)
  refine ⟨t.rounds_fraction.sameSide.1 (div_nonneg hcount (by norm_num)), ?_⟩
  have hmost := (le_abs_self _).trans t.fraction_spec.2.2
  rwa [pow_zero] at hmost

/-- More picoseconds below the second make no smaller fraction. -/
theorem fraction_mono (a b : Timestamp)
    (h : a.micro * 1000000 + a.pico ≤ b.micro * 1000000 + b.pico) :
    a.fraction.value ≤ b.fraction.value := by
  refine a.rounds_fraction.mono b.rounds_fraction ?_ a.fraction_spec.2.1 b.fraction_spec.2.1
  exact div_le_div_of_nonneg_right (by exact_mod_cast h) (by norm_num)

/-! ## Below the high digit -/

theorem isFinite_belowHigh (t : Timestamp) : t.belowHigh.isFinite = true :=
  (t.rounds_belowHigh.1.near 16 (by norm_num) t.rounds_belowHigh.2).1

/-- What is below the high digit is not negative, and may be rounded to the
    whole radix. -/
theorem belowHigh_mem (t : Timestamp) : 0 ≤ t.belowHigh.value ∧ t.belowHigh.value ≤ 65536 := by
  rcases t.rounds_belowHigh with ⟨hrounds, hsize⟩
  have hlow : (0 : Rat) ≤ t.low := by exact_mod_cast t.low_mem.1
  refine ⟨hrounds.sameSide.1 (add_nonneg t.fraction_mem.1 hlow), ?_⟩
  exact (le_abs_self _).trans ((hrounds.atMost 16 (by norm_num) hsize).2.trans (by norm_num))

/-- Greater low seconds, or the same with a fraction that is no smaller, leave
    no less below the high digit. -/
theorem belowHigh_mono (a b : Timestamp)
    (h : a.low < b.low ∨ a.low = b.low ∧
      a.micro * 1000000 + a.pico ≤ b.micro * 1000000 + b.pico) :
    a.belowHigh.value ≤ b.belowHigh.value := by
  have hsum := add_digit_le zero_le_one a.fraction_mem.2 b.fraction_mem.1
    (h.imp_right fun hsame => ⟨hsame.1, a.fraction_mono b hsame.2⟩)
  -- The low seconds are a digit whose unit is one.
  rw [mul_one, mul_one] at hsum
  exact a.rounds_belowHigh.1.mono b.rounds_belowHigh.1 hsum a.isFinite_belowHigh
    b.isFinite_belowHigh

/-! ## All seconds -/

/-- A timestamp whose high digit is a double has seconds, which are finite and
    rounded from the sum of the two parts. -/
theorem exists_inSeconds_rounds (t : Timestamp) (hhigh : |t.high| ≤ 2 ^ 53) :
    ∃ x, t.inSeconds = .ok x ∧ x.isFinite = true ∧
      x.Rounds (t.belowHigh.value + t.high * 65536) := by
  rcases t.exists_toFloat? (exactHigh_of_le t.high hhigh) with ⟨x, hx, hrounds⟩
  -- The sum is far below the largest double, so rounding it gives a number.
  have hsize : |t.belowHigh.value + t.high * 65536| ≤ (2 : Rat) ^ 70 := by
    have hcast : |(t.high : Rat)| ≤ (2 : Rat) ^ 53 := by exact_mod_cast hhigh
    rcases t.belowHigh_mem with ⟨hnonneg, hmost⟩
    rw [abs_le] at hcast ⊢
    constructor <;> linarith
  exact ⟨x, by rw [inSeconds, hx], (hrounds.near 70 (by norm_num) hsize).1, hrounds⟩

/-- Seconds keep the order of timestamps. Of two timestamps whose high digits
    are doubles, the one with no greater count has the seconds that are no
    greater. -/
theorem inSeconds_mono (a b : Timestamp) (ha : |a.high| ≤ 2 ^ 53) (hb : |b.high| ≤ 2 ^ 53)
    (h : a.picoseconds ≤ b.picoseconds) :
    ∃ x y, a.inSeconds = .ok x ∧ b.inSeconds = .ok y ∧ x.isFinite = true ∧ y.isFinite = true ∧
      x.le y = true := by
  rcases a.exists_inSeconds_rounds ha with ⟨x, hx, hxfinite, hxrounds⟩
  rcases b.exists_inSeconds_rounds hb with ⟨y, hy, hyfinite, hyrounds⟩
  -- What is added to the high digit has been rounded before, and only its bounds and its order
  -- are left to go by.
  have hsum := add_digit_le (by norm_num) a.belowHigh_mem.2 b.belowHigh_mem.1
    ((a.digits_of_picoseconds_le b h).imp_right fun hsame =>
      ⟨hsame.1, a.belowHigh_mono b hsame.2⟩)
  exact ⟨x, y, hx, hy, hxfinite, hyfinite, (le_eq_true_iff hxfinite hyfinite).mpr
    (hxrounds.mono hyrounds hsum hxfinite hyfinite)⟩

/-- The last picosecond before the epoch and the epoch itself. All digits of the
    first are rounded up to the next high digit, and the two are still in
    order. -/
theorem inSeconds_mono_before_epoch :
    let last : Timestamp := ⟨-1, 65535, 999999, 999999, by decide, by decide, by decide⟩
    |last.high| ≤ 2 ^ 53 ∧ |zero.high| ≤ 2 ^ 53 ∧ last.picoseconds ≤ zero.picoseconds ∧
      ∃ x y, last.inSeconds = .ok x ∧ zero.inSeconds = .ok y ∧ x.isFinite = true ∧
        y.isFinite = true ∧ x.le y = true := by
  intro last
  have hlast : |last.high| ≤ 2 ^ 53 := by decide
  have hzero : |zero.high| ≤ 2 ^ 53 := by decide
  have hle : last.picoseconds ≤ zero.picoseconds := by decide
  exact ⟨hlast, hzero, hle, inSeconds_mono last zero hlast hzero hle⟩

-- One below minus `2 ^ 53` the high digit is rounded, and what is below it takes the seconds past
-- those of a later timestamp.
example :
    ((⟨-9007199254740993, 65535, 999999, 999999, by decide, by decide, by decide⟩ :
        Timestamp).toFloat?.bind fun x =>
      (⟨-9007199254740992, 0, 0, 0, by decide, by decide, by decide⟩ :
        Timestamp).toFloat?.map fun y => y.lt x) = some true := by
  decide +kernel

end Timestamp

end PicoTime
