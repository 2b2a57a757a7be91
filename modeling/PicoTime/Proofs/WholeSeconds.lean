import PicoTime.Proofs.Window

/-!
# Whole Seconds as Doubles

Whole seconds may be offered as an integer or as a double. The integer is split
by one division. The double goes through a chain of rounded operations, and
still comes to the same digits: of a double that is an integer nothing is left
to be rounded, however large it is and on either side of zero.

What differs is which of them pass. For the integer the high digit has to be in
the range. The double is held against the window first, which comes from the
lower bound alone and lies evenly around zero. On the lower side that is the
same check, because multiplying by the radix does not round: if the bound is a
double, then the window begins at its seconds, or before all doubles. On the
upper side the window ends as far from zero as it begins. A range that reaches
further up is cut off there, and one that ends before has its say afterwards,
when the high digit is checked.

A lower bound that is no double is rounded when the window is computed, and the
window may then begin next to the range and not with it.

Whatever is refused here can be named. A high digit of a double is short, and if
it is past the end of the range, then so are both bounds.

## Theorems

* `HighRange.rankValue_windowRank`: Where the window ends.
* `HighRange.exactly_fixnum`: The lower bound of the usual range is a double.
* `Binary64.hasNumeral_of_exactly`: An integer that is a double can be written.
* `HighRange.canName_of_lt`: A range that ends before a double can be named.
* `Decoded.ofFloat_of_integer`: What a double that is an integer decodes to.
* `Datum.decode_float_of_integer`: It decodes as the integer does.
-/

namespace PicoTime

open Binary64

/-- An integer that is a double can be written. -/
theorem Binary64.hasNumeral_of_exactly {n : Int} (h : (ofInt n).Exactly n) :
    hasNumeral n = true := by
  have hlt := (ofInt n).abs_value_lt h.1
  have hcast (k : Nat) (hk : |(n : Rat)| < (2 : Rat) ^ (k : Int)) : |n| < 2 ^ k := by
    rw [zpow_natCast] at hk
    exact_mod_cast hk
  rw [h.2] at hlt
  exact hasNumeral_of_abs_lt (by decide) (hcast 1024 hlt)

namespace HighRange

/-- A lower bound that is a double has a window. -/
theorem near_of_exactly (range : HighRange) (hmin : (ofInt range.min).Exactly range.min) :
    -(2 ^ 1024 - 2 ^ 970) < range.min := by
  rw [← exists_window_iff, window, ofInt?_eq_some _ hmin.1]
  exact ⟨_, rfl⟩

/-- The window of a lower bound that is a double ends at its seconds, on either
    side of zero. -/
theorem rankValue_windowRank (range : HighRange) (hmin : (ofInt range.min).Exactly range.min) :
    rankValue range.windowRank = ((-65536 * range.min : Int) : Rat) := by
  rcases hmin with ⟨hfinite, hvalue⟩
  rw [ofInt_min] at hfinite hvalue
  rw [value_ofRank _ _ ((isFinite_ofRank _ _).mp hfinite)] at hvalue
  have hbound : rankValue (nearestRank (-range.min)) = -range.min := neg_eq_iff_eq_neg.mp hvalue
  rw [windowRank, rankValue_add_binades _ 16 range.binadeSize_le_nearestRank, hbound]
  push_cast
  ring

/-- The lower bound of the usual range is a power of two. -/
theorem exactly_fixnum : (ofInt fixnum.min).Exactly fixnum.min :=
  ⟨by decide +kernel, by decide +kernel⟩

/-- If a high digit that can be written is past the end of the range, and the
    lower bound can be written, a message can name them. -/
theorem canName_of_lt {range : HighRange} {high : Int} (hhigh : hasNumeral high = true)
    (hmin : hasNumeral range.min = true) (hlt : range.max < high) : range.CanName high := by
  refine ⟨hhigh, ?_⟩
  have hle := range.min_le_max
  rw [isShowable, Bool.and_eq_true]
  refine ⟨hmin, ?_⟩
  -- The upper bound is between the two.
  rcases le_total 0 range.max with hsign | hsign
  · exact hasNumeral_of_natAbs_le (by omega) hhigh
  · exact hasNumeral_of_natAbs_le (by omega) hmin

end HighRange

section

variable (range : HighRange) (hmin : (ofInt range.min).Exactly range.min) (x : Binary64) (n : Int)
  (hx : x.Exactly n)

include hmin hx

/-- An integer lies in the window if it is no further from zero than the
    seconds of the lower bound, and only below zero as far. -/
theorem Binary64.within_of_integer :
    x.within (ofRank true range.windowRank) (ofRank false range.windowRank) = true
      ↔ 65536 * range.min ≤ n ∧ n < -65536 * range.min := by
  rw [x.within_of_finite hx.1, range.rankValue_windowRank hmin, hx.2, ← Int.cast_neg, Int.cast_le,
    Int.cast_lt, neg_mul, neg_neg]

/-- What a double that is an integer decodes to: its whole seconds, if it lies
    in the window and their high part is in the range. -/
theorem Decoded.ofFloat_of_integer :
    ofFloat range x = .ok (
      if 65536 * range.min ≤ n ∧ n < -65536 * range.min then checked range (.ofWhole n) 4
      else .failure .outOfRange
        (.floatOutside x (ofRank true range.windowRank) (ofRank false range.windowRank)) 4) := by
  rcases Components.exists_ofFloatChecked? x hx.1 with ⟨c, -, hc, -, -, hwhole⟩
  have hdigits : c.normalize = .ofWhole n := by
    rw [hwhole n hx.2]
    exact Timestamp.normalize_digits (.ofWhole n)
  rw [ofFloat_of_window range x _ _ (range.window_of_near (range.near_of_exactly hmin)), hc]
  simp only [within_of_integer range hmin x n hx, hdigits]
  split_ifs with hwindow
  · refine worded_of_isShowable ((isShowable_checked range _ 4).mpr ?_)
    -- The window begins with the range, so only its end can be passed.
    by_cases hmem : (Timestamp.ofWhole n).high ∈ range
    · exact Or.inl hmem
    · have hle : range.min ≤ n / 65536 := by omega
      have hlt : range.max < (Timestamp.ofWhole n).high :=
        lt_of_not_ge fun hge => hmem ⟨hle, hge⟩
      exact Or.inr (HighRange.canName_of_lt (hdigits ▸ Components.hasNumeral_of_ofFloat? x c hc)
        (hasNumeral_of_exactly hmin) hlt)
  · rfl

/-- A double that is an integer decodes as the integer does. Within a range
    whose lower bound is a double, the result is a timestamp exactly if the
    high part of the integer is in the range and the integer is less than the
    seconds of the lower bound on the other side of zero. The timestamp is then
    the one that the integer decodes to, in whole seconds, and the length is
    four. In every other case the result is out of range. -/
theorem Datum.decode_float_of_integer :
    ∃ d, (Datum.float x).decode range = pure d ∧ d.length = 4 ∧
      (d.kind? = none ↔ n / 65536 ∈ range ∧ n < -65536 * range.min) ∧
      (d.kind? = none → ∃ t, d.time? = some t ∧
        (Datum.int n).decode range = pure (.success t 2) ∧
        t.high = n / 65536 ∧ t.low = n % 65536 ∧ t.micro = 0 ∧ t.pico = 0) ∧
      (d.kind? ≠ none → d.kind? = some .outOfRange ∧ d.time? = none) := by
  have hdecode (d : Decoded) (hd : Decoded.ofFloat range x = .ok d) :
      (Datum.float x).decode range = pure d := by
    change liftM (Decoded.ofFloat range x) = _
    rw [hd]
    rfl
  refine ⟨_, hdecode _ (Decoded.ofFloat_of_integer range hmin x n hx), ?_⟩
  by_cases hwindow : 65536 * range.min ≤ n ∧ n < -65536 * range.min
  · rw [if_pos hwindow, Decoded.checked]
    by_cases hmem : (Timestamp.ofWhole n).high ∈ range
    · rw [if_pos hmem]
      refine ⟨rfl, iff_of_true rfl ⟨hmem, hwindow.2⟩, fun _ => ⟨.ofWhole n, rfl, ?_, rfl, rfl, rfl,
        rfl⟩, fun h => absurd rfl h⟩
      rw [decode_int, Decoded.worded_checked_of_mem 2 hmem]
      rfl
    · rw [if_neg hmem]
      exact ⟨rfl, iff_of_false (Option.some_ne_none _) (fun h => hmem h.1),
        fun h => absurd h (Option.some_ne_none _), fun _ => ⟨rfl, rfl⟩⟩
  · -- An integer below the window has a high part below the range.
    rw [if_neg hwindow]
    refine ⟨rfl, iff_of_false (Option.some_ne_none _) (fun h => hwindow ⟨?_, h.2⟩),
      fun h => absurd h (Option.some_ne_none _), fun _ => ⟨rfl, rfl⟩⟩
    have hle := h.1.1
    omega

end

/-- Both ends of the usual window. The lower one decodes as its integer does,
    and the upper one is out of range. -/
theorem Datum.decode_float_of_integer_at_ends :
    let lower := ofBits 0xc4c0000000000000
    let upper := ofBits 0x44c0000000000000
    (ofInt HighRange.fixnum.min).Exactly HighRange.fixnum.min ∧
      lower.Exactly (-151115727451828646838272 : Int) ∧
      upper.Exactly (151115727451828646838272 : Int) ∧
      (∃ d t, (Datum.float lower).decode .fixnum = pure d ∧ d.time? = some t ∧ d.length = 4 ∧
        (Datum.int (-151115727451828646838272)).decode .fixnum = pure (.success t 2) ∧
        t.high = HighRange.fixnum.min) ∧
      ∃ d, (Datum.float upper).decode .fixnum = pure d ∧ d.kind? = some .outOfRange := by
  intro lower upper
  have hlower : lower.Exactly (-151115727451828646838272 : Int) :=
    ⟨by decide +kernel, by decide +kernel⟩
  have hupper : upper.Exactly (151115727451828646838272 : Int) :=
    ⟨by decide +kernel, by decide +kernel⟩
  refine ⟨HighRange.exactly_fixnum, hlower, hupper, ?_, ?_⟩
  · rcases decode_float_of_integer .fixnum HighRange.exactly_fixnum lower _ hlower with
      ⟨d, hd, hlength, hkind, htime, -⟩
    rcases htime (hkind.mpr (by decide)) with ⟨t, ht, hint, hhigh, -⟩
    exact ⟨d, t, hd, ht, hlength, hint, hhigh⟩
  · rcases decode_float_of_integer .fixnum HighRange.exactly_fixnum upper _ hupper with
      ⟨d, hd, -, hkind, -, hout⟩
    exact ⟨d, hd, (hout (fun h => absurd (hkind.mp h) (by decide))).1⟩

end PicoTime
