import PicoTime.Timestamp.Places
import PicoTime.Timestamp.Sum
import Mathlib.Order.Bounds.Defs
import Mathlib.Tactic.Ring

/-!
# The Resolution of Leading Places

Writing a timestamp with fewer places is rounding its count down to a
multiple of the last place's unit. `resolution` is that unit, and everything
about truncation is said through it: what truncating keeps is the greatest
multiple that is not above the count, for negative times too, and a timestamp
loses nothing exactly if its count is a multiple already.

The second form is the one that composes. Sums and differences of multiples
are multiples, and a unit of more places divides a unit of fewer, so a result
written with as many places as the longer operand has loses nothing either.

## Main definitions

* `IsLength`: The numbers of places a time is written with.
* `Timestamp.resolution`: The unit of the last of so many places.
* `AreDigits`: Integers as they stand in the leading places of a timestamp.

## Theorems

* `Timestamp.picoseconds_truncate`: Truncating rounds the count down.
* `Timestamp.isGreatest_truncate`: It keeps the greatest multiple not above.
* `Timestamp.truncate_eq_self_iff`: Nothing is lost of a multiple.
* `Timestamp.resolution_max_dvd`: More places have a finer unit.
* `Timestamp.normalize_digits`: Digits in range are carried nowhere.
* `Timestamp.encode_eq_ok_iff`: What is written of a timestamp.
* `Timestamp.areDigits_of_encode`: Written places are digits.
-/

namespace PicoTime

/-- The numbers of places a time is written with. -/
def IsLength (n : Int) : Prop :=
  n = 2 ∨ n = 3 ∨ n = 4

theorem isLength_max (m n : Int) (hm : IsLength m) (hn : IsLength n) : IsLength (max m n) := by
  unfold IsLength at *
  omega

/-- Integers as they stand in the leading places of a timestamp: two, three or
    four of them, all but the first within their place. -/
def AreDigits : List Int → Prop
  | _ :: low :: rest =>
    (0 ≤ low ∧ low < 65536) ∧ (∀ d ∈ rest, 0 ≤ d ∧ d < 1000000) ∧ rest.length ≤ 2
  | _ => False

namespace Timestamp

/-- The number of picoseconds in a unit of the last of so many places. -/
def resolution (n : Int) : Int :=
  if n = 4 then 1 else if n = 3 then 1000000 else 1000000000000

theorem resolution_pos (n : Int) : 0 < resolution n := by
  unfold resolution
  split_ifs <;> omega

/-- Truncating rounds the count down to a multiple of the unit. -/
theorem picoseconds_truncate (t : Timestamp) (n : Int) (hn : IsLength n) :
    (t.truncate n).picoseconds = t.picoseconds / resolution n * resolution n := by
  have hm := t.micro_mem
  have hp := t.pico_mem
  -- The places that are left out hold less than one unit of the last one kept.
  rcases hn with rfl | rfl | rfl
  · simp only [truncate, resolution, picoseconds, reduceIte, Int.reduceLE, Int.reduceEq]
    omega
  · simp only [truncate, resolution, picoseconds, reduceIte, Int.reduceLE, Int.reduceEq]
    omega
  · simp only [truncate, resolution, reduceIte, Int.reduceLE, Int.ediv_one, mul_one]

/-- What is left of a timestamp is the greatest time of its resolution that is
    not later. -/
theorem isGreatest_truncate (t : Timestamp) (n : Int) (hn : IsLength n) :
    IsGreatest {m : Int | resolution n ∣ m ∧ m ≤ t.picoseconds} (t.truncate n).picoseconds := by
  rw [picoseconds_truncate t n hn]
  constructor
  · exact ⟨Int.dvd_mul_left _ _, Int.ediv_mul_le _ (resolution_pos n).ne'⟩
  · -- A multiple that is not above the count has no greater factor.
    rintro m ⟨⟨k, rfl⟩, hle⟩
    rw [Int.mul_comm] at hle ⊢
    exact Int.mul_le_mul_of_nonneg_right ((Int.le_ediv_iff_mul_le (resolution_pos n)).mpr hle)
      (resolution_pos n).le

/-- Nothing is lost exactly if the count is a multiple of the unit. -/
theorem truncate_eq_self_iff (t : Timestamp) (n : Int) (hn : IsLength n) :
    t.truncate n = t ↔ resolution n ∣ t.picoseconds := by
  constructor
  · intro h
    rw [← h, picoseconds_truncate t n hn]
    exact Int.dvd_mul_left _ _
  · intro h
    apply ext_of_picoseconds
    rw [picoseconds_truncate t n hn, Int.ediv_mul_cancel h]

/-- More places have a unit that divides the unit of fewer. -/
theorem resolution_dvd (m n : Int) (hn : IsLength n) (hle : m ≤ n) :
    resolution n ∣ resolution m := by
  unfold IsLength at hn
  unfold resolution
  split_ifs <;> omega

/-- What has one of two lengths has the longer of them. -/
theorem resolution_max_dvd (m n c d : Int) (hm : IsLength m) (hn : IsLength n)
    (hc : resolution m ∣ c) (hd : resolution n ∣ d) :
    resolution (max m n) ∣ c ∧ resolution (max m n) ∣ d := by
  have hmax := isLength_max m n hm hn
  exact ⟨(resolution_dvd m _ hmax (Int.le_max_left m n)).trans hc,
    (resolution_dvd n _ hmax (Int.le_max_right m n)).trans hd⟩

/-- Digits that are in range already are carried nowhere. -/
theorem normalize_digits (t : Timestamp) :
    Components.normalize ⟨t.high, t.low, t.micro, t.pico⟩ = t := by
  apply ext_of_picoseconds
  rw [Components.picoseconds_normalize]
  rfl

/-- What is written of a timestamp with so many places. -/
theorem encode_eq_ok_iff (t : Timestamp) (n : Int) (ns : List Int) :
    t.encode n = .ok ns ↔ IsLength n ∧ (t.truncate n).toList.take n.toNat = ns := by
  unfold encode IsLength
  split_ifs with h
  · simp only [Except.ok.injEq, h, true_and]
  · simp only [h, false_and]

/-- What is written are digits, as many as asked for, from the high one on. -/
theorem areDigits_of_encode (t : Timestamp) (n : Int) (ns : List Int)
    (h : t.encode n = .ok ns) :
    AreDigits ns ∧ (ns.length : Int) = n ∧ ns.head? = some t.high := by
  rcases (encode_eq_ok_iff t n ns).mp h with ⟨hn, rfl⟩
  have hl := t.low_mem
  have hm := t.micro_mem
  have hp := t.pico_mem
  -- The high place has no bounds, and the others keep theirs.
  rcases hn with rfl | rfl | rfl <;>
    simp [truncate, toList, AreDigits, hl, hm, hp]

/-- Digits are what is written of the timestamp that has them. -/
theorem exists_encode_of_areDigits (ns : List Int) (h : AreDigits ns) :
    ∃ t : Timestamp, t.encode ns.length = .ok ns ∧ t.truncate ns.length = t := by
  match ns, h with
  -- Places that are not written are zero.
  | [high, low], ⟨hl, _, _⟩ =>
      exact ⟨⟨high, low, 0, 0, hl, by omega, by omega⟩, rfl, rfl⟩
  | [high, low, micro], ⟨hl, hd, _⟩ =>
      exact ⟨⟨high, low, micro, 0, hl, hd micro (by simp), by omega⟩, rfl, rfl⟩
  | [high, low, micro, pico], ⟨hl, hd, _⟩ =>
      exact ⟨⟨high, low, micro, pico, hl, hd micro (by simp), hd pico (by simp)⟩, rfl, rfl⟩
  | _ :: _ :: _ :: _ :: _ :: rest, ⟨_, _, hlen⟩ =>
      -- There are four places and no more.
      simp only [List.length_cons] at hlen
      omega

end Timestamp

end PicoTime
