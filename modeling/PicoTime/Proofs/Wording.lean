import PicoTime.Decoded
import PicoTime.Proofs.Timed
import PicoTime.Text.Digit
import Mathlib.Algebra.Group.Nat.Defs
import Mathlib.Algebra.Order.Group.Unbundled.Int
import Mathlib.Data.List.Induction

/-!
# What Can Be Put in Words

Whether an integer can be written is a question about its size: it has to be
below the power of ten that is the first to need one digit more. So what is
between two integers that can be written can be written too, digits that can be
read denote an integer that can be written, and everything of the size of a
double can.

A message is written when its cause arises, and one that cannot be written
takes the place of what it was for. A result is returned as it is or not at
all, and an error is raised as it is or as the one for integers that are too
long. Checking a high digit against a range is the case that returns
everywhere: the message names the digit and both bounds, and none is needed if
the digit is in the range.

## Main definitions

* `HighRange.CanName`: A message can name an integer and the range.

## Theorems

* `hasNumeral_iff`: Which integers can be written.
* `hasNumeral_of_natAbs_le`: Smaller ones can, too.
* `hasNumeral_numeralValue`: What is read can be written.
* `HighRange.hasNumeral_of_mem`: So can the high digits of most ranges.
* `hasNumeral_of_abs_lt`: So can whatever is of the size of a double.
* `Decoded.worded_eq_ok_iff`: What is put in words is left as it is.
* `Decoded.toExcept_worded_failure`: A failure and its error are put in words
  alike.
* `Decoded.isShowable_checked`: When the check of a high digit has an answer.
* `Decoded.worded_checked_of_mem`, `Decoded.worded_checked_of_canName`,
  `Decoded.worded_checked_of_not_canName`, `Decoded.worded_checked_of_long`:
  What it ends with.
-/

namespace PicoTime

/-! ## Integers -/

/-- An integer can be written if it is below the first power of ten that has
    too many digits. -/
theorem hasNumeral_iff (n : Int) : hasNumeral n = true ↔ n.natAbs < 10 ^ numeralLimit := by
  rw [hasNumeral, decide_eq_true_iff]
  exact Nat.length_toDigits_le_iff (by decide) (by decide)

/-- What is closer to zero can be written too. -/
theorem hasNumeral_of_natAbs_le {m n : Int} (h : m.natAbs ≤ n.natAbs) (hn : hasNumeral n = true) :
    hasNumeral m = true := by
  rw [hasNumeral_iff] at *
  exact h.trans_lt hn

/-- The first integer that cannot be written. -/
theorem hasNumeral_ten_pow : hasNumeral (10 ^ numeralLimit) = false := by
  have habs (k : Nat) : ((10 : Int) ^ k).natAbs = 10 ^ k := Int.natAbs_pow 10 k
  rw [Bool.eq_false_iff, ne_eq, hasNumeral_iff, habs]
  exact lt_irrefl _

/-- Digits that can be read denote less than the power of ten of their
    number. -/
theorem numeralValue_lt (digits : List Char) : numeralValue digits < 10 ^ digits.length := by
  unfold numeralValue
  induction digits using List.reverseRecOn with
  | nil => decide
  | append_singleton digits c ih =>
      have hdigit : (digitValue? c).getD 0 < 10 := by
        rcases hc : digitValue? c with _ | n
        · decide
        · exact digitValue?_lt hc
      rw [List.foldl_append, List.length_append, List.length_singleton, Nat.pow_succ]
      dsimp only [List.foldl_cons, List.foldl_nil]
      omega

/-- What is read can be written. -/
theorem hasNumeral_numeralValue (digits : List Char) (h : digits.length ≤ numeralLimit) :
    hasNumeral (numeralValue digits) = true := by
  rw [hasNumeral_iff, Int.natAbs_natCast]
  exact (numeralValue_lt digits).trans_le (Nat.pow_le_pow_right (by decide) h)

/-- Every integer below a power of two with that exponent can be written. -/
theorem hasNumeral_of_abs_lt {n : Int} {k : Nat} (hk : k ≤ numeralLimit) (h : |n| < 2 ^ k) :
    hasNumeral n = true := by
  have hten : (2 : Nat) ^ k ≤ 10 ^ numeralLimit :=
    (Nat.pow_le_pow_left (by decide) k).trans (Nat.pow_le_pow_right (by decide) hk)
  rw [Int.abs_eq_natAbs] at h
  rw [hasNumeral_iff]
  exact lt_of_lt_of_le (by exact_mod_cast h) hten

/-- A message can name an integer and the range that it is not in. -/
def HighRange.CanName (range : HighRange) (n : Int) : Prop :=
  hasNumeral n = true ∧ range.isShowable = true

instance (range : HighRange) (n : Int) : Decidable (range.CanName n) :=
  inferInstanceAs (Decidable (_ ∧ _))

/-- The high part of seconds that can be named can be named as well. -/
theorem HighRange.CanName.high {range : HighRange} {seconds : Int} (h : range.CanName seconds) :
    range.CanName (seconds / 65536) :=
  ⟨hasNumeral_of_natAbs_le (by omega) h.1, h.2⟩

/-- What is between two bounds that can be written can be written. -/
theorem HighRange.hasNumeral_of_mem {range : HighRange} {n : Int} (hshow : range.isShowable = true)
    (hn : n ∈ range) : hasNumeral n = true := by
  rw [isShowable, Bool.and_eq_true] at hshow
  rcases hn with ⟨hmin, hmax⟩
  rcases le_total 0 n with hsign | hsign
  · exact hasNumeral_of_natAbs_le (by omega) hshow.2
  · exact hasNumeral_of_natAbs_le (by omega) hshow.1

section

variable {n : Int} (hlong : hasNumeral n = false)
include hlong

theorem HighRange.not_canName (range : HighRange) : ¬ range.CanName n :=
  fun h => Bool.false_ne_true (hlong.symm.trans h.1)

/-- What cannot be written is outside of every range that can be shown. -/
theorem HighRange.not_mem_of_long {range : HighRange} (hshow : range.isShowable = true) :
    n ∉ range :=
  fun h => Bool.false_ne_true (hlong.symm.trans (hasNumeral_of_mem hshow h))

end

/-! ## Causes -/

namespace Cause

theorem isShowable_highOutside (range : HighRange) (high : Int) :
    (highOutside high range).isShowable = true ↔ range.CanName high := by
  rw [isShowable, Bool.and_eq_true]
  rfl

/-- Seconds are at least as long as their high part. -/
theorem isShowable_secondsOutside (range : HighRange) (seconds : Int) :
    (secondsOutside seconds (seconds / 65536) range).isShowable = true
      ↔ range.CanName seconds := by
  rw [isShowable, Bool.and_eq_true, Bool.and_eq_true]
  exact ⟨fun h => ⟨h.1.1, h.2⟩, fun h => ⟨⟨h.1, h.high.1⟩, h.2⟩⟩

end Cause

namespace TimeError

theorem worded_of_isShowable {e : TimeError} (h : e.cause.isShowable = true) :
    e.worded = .time e :=
  if_pos h

theorem worded_of_not_isShowable {e : TimeError} (h : ¬ e.cause.isShowable = true) :
    e.worded = .argument .integerTooLong :=
  if_neg h

end TimeError

/-- The error that a failure is raised as keeps its cause. -/
theorem FailureKind.cause_error (kind : FailureKind) (cause : Cause) :
    (kind.error cause).cause = cause := by
  cases kind <;> rfl

namespace Decoded

theorem worded_of_isShowable {d : Decoded} (h : d.isShowable = true) : d.worded = .ok d :=
  if_pos h

theorem worded_of_not_isShowable {d : Decoded} (h : ¬ d.isShowable = true) :
    d.worded = .error (.argument .integerTooLong) :=
  if_neg h

/-- What is returned is the result itself. -/
theorem worded_eq_ok_iff (d r : Decoded) : d.worded = .ok r ↔ d.isShowable = true ∧ d = r := by
  unfold worded
  split_ifs with h
  · simp only [Except.ok.injEq, h, true_and]
  · simp only [reduceCtorEq, h, false_and]

/-- A success needs no words. -/
theorem worded_eq_success_iff (d : Decoded) (t : Timestamp) (n : Int) :
    d.worded = .ok (.success t n) ↔ d = .success t n := by
  rw [worded_eq_ok_iff]
  refine ⟨fun h => h.2, ?_⟩
  rintro rfl
  exact ⟨rfl, rfl⟩

/-- A failure that is not kept is raised as its error, whichever of the two has
    to be put in words. -/
theorem toExcept_worded_failure (kind : FailureKind) (cause : Cause) (n : Int) :
    ((failure kind cause n).worded >>= fun d => orFault d.toExcept)
      = .error (kind.error cause).worded := by
  by_cases h : cause.isShowable = true
  · rw [worded_of_isShowable (d := failure kind cause n) h,
      TimeError.worded_of_isShowable (by rwa [FailureKind.cause_error])]
    rfl
  · rw [worded_of_not_isShowable (d := failure kind cause n) h,
      TimeError.worded_of_not_isShowable (by rwa [FailureKind.cause_error])]
    rfl

/-- The check of a high digit has an answer if the digit is in the range, or if
    a message can say that it is not. -/
theorem isShowable_checked (range : HighRange) (t : Timestamp) (n : Int) :
    (checked range t n).isShowable = true ↔ t.high ∈ range ∨ range.CanName t.high := by
  unfold checked
  split_ifs with h
  · exact iff_of_true rfl (Or.inl h)
  · rw [isShowable, Cause.isShowable_highOutside, or_iff_right h]

section

variable {range : HighRange} {t : Timestamp} (n : Int)

theorem worded_checked_of_mem (h : t.high ∈ range) :
    (checked range t n).worded = .ok (.success t n) := by
  rw [checked, if_pos h]
  rfl

theorem worded_checked_of_canName (h : t.high ∉ range) (hname : range.CanName t.high) :
    (checked range t n).worded
      = .ok (.failure .outOfRange (.highOutside t.high range) n) := by
  rw [worded_of_isShowable ((isShowable_checked range t n).mpr (Or.inr hname)), checked, if_neg h]

theorem worded_checked_of_not_canName (h : t.high ∉ range) (hname : ¬ range.CanName t.high) :
    (checked range t n).worded = .error (.argument .integerTooLong) :=
  worded_of_not_isShowable fun hshow =>
    ((isShowable_checked range t n).mp hshow).elim h hname

/-- A high digit that cannot be written stops the check if the range can be. -/
theorem worded_checked_of_long (hlong : hasNumeral t.high = false)
    (hshow : range.isShowable = true) :
    (checked range t n).worded = .error (.argument .integerTooLong) :=
  worded_checked_of_not_canName n (HighRange.not_mem_of_long hlong hshow)
    (HighRange.not_canName hlong range)

end

end Decoded

end PicoTime
