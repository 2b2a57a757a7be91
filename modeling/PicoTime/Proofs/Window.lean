import PicoTime.Proofs.Fields
import PicoTime.Proofs.FloatPlaces

/-!
# Where Decoding Stops

The window of doubles is computed from the lower bound of the range, which may
be any negative integer. Two things can go wrong with a large one. If it is
beyond all doubles there is no window, and no double decodes, whatever its
value. If it is a double but its number of seconds is not, the window is
infinite. It is closed below, so it admits the negative infinity, which has no
high digit.

Neither happens anywhere else. A NaN is in no window, the positive infinity is
at most the end of one, and a finite double has all its places.

What is left has nothing to do with doubles. A result that has to name an
integer which cannot be written is not returned, whatever was decoded. The
high digit of a double can always be written, so there it takes a range that
cannot.

## Main definitions

* `HighRange.windowRank`: The rank of the ends of a window.
* `HighRange.fromPower`: The ranges that the failures are shown at.

## Theorems

* `HighRange.window_of_far`, `HighRange.window_of_near`,
  `HighRange.exists_window`: The window of a range.
* `HighRange.exists_window_iff`: Which ranges have one.
* `Binary64.within_of_finite`, `Binary64.within_of_not_finite`: What a window
  admits.
* `Components.hasNumeral_of_ofFloat?`: The high digit of a double can be
  written.
* `Decoded.ofFloat_eq_success_iff`: Which doubles decode to a time.
* `Datum.outcome_decode`: Which data stop a decoding.
-/

namespace PicoTime

open Binary64

/-- A lower bound that is beyond all doubles gives no window. -/
theorem HighRange.window_of_far (range : HighRange)
    (h : range.min ≤ -(2 ^ 1024 - 2 ^ 970)) : range.window = .error .integerTooLarge := by
  have hnone : ofInt? range.min = none := by
    rw [ofInt?_eq_none_iff, abs_of_neg range.min_neg]
    exact le_neg.mp h
  rw [window, hnone]

/-- The radix moves the value of a later rank up by sixteen binades. -/
theorem Binary64.ofRank_mul_lowRadix (rank : Nat) (hlarge : binadeSize ≤ rank)
    (hrank : rank < finiteCount) :
    ofRank true rank * lowRadix = ofRank true (rank + 16 * binadeSize) := by
  have hpos : 0 < rank + 16 * binadeSize := by
    have := binadeSize_pos
    omega
  have hvalue : (finite true ⟨rank, hrank⟩).value * lowRadix.value
      = -rankValue (rank + 16 * binadeSize) := by
    rw [lowRadix_spec.2, rankValue_add_binades rank 16 hlarge, ← neg_mul]
    norm_num [value, signedValue]
  have hneg : -rankValue (rank + 16 * binadeSize) < 0 := neg_lt_zero.mpr (rankValue_pos _ hpos)
  rw [ofRank, dif_pos hrank]
  rcases mul_eq_round (finite true ⟨rank, hrank⟩) lowRadix rfl lowRadix_spec.1 with
    ⟨zeroSign, hmul⟩
  rw [hmul, hvalue, round_of_neg zeroSign _ hneg, neg_neg, nearestRank_rankValue _ hpos]

theorem Binary64.neg_ofRank_true (rank : Nat) : -ofRank true rank = ofRank false rank := by
  unfold ofRank
  split_ifs <;> rfl

/-- The rank of the ends of the window, if there is one. -/
def HighRange.windowRank (range : HighRange) : Nat :=
  nearestRank (-range.min) + 16 * binadeSize

theorem HighRange.one_le_neg_min (range : HighRange) : (1 : Rat) ≤ -range.min := by
  have hle : 1 ≤ -range.min := by
    have := range.min_neg
    omega
  exact_mod_cast hle

theorem HighRange.ofInt_min (range : HighRange) :
    ofInt range.min = ofRank true (nearestRank (-range.min)) :=
  round_of_neg false _ (by exact_mod_cast range.min_neg)

/-- The lower bound is the value of a rank far past the first binade, as one
    is. -/
theorem HighRange.binadeSize_le_nearestRank (range : HighRange) :
    binadeSize ≤ nearestRank (-range.min) := by
  have hle := nearestRank_mono 1 _ one_pos range.one_le_neg_min
  have hvalue := rankValue_two_pow 0
  rw [pow_zero] at hvalue
  rw [← hvalue, nearestRank_rankValue _ (by decide)] at hle
  exact le_trans (by decide) hle

/-- The other lower bounds give a window around zero. -/
theorem HighRange.window_of_near (range : HighRange) (h : -(2 ^ 1024 - 2 ^ 970) < range.min) :
    range.window = .ok (ofRank true range.windowRank, ofRank false range.windowRank) := by
  have hdouble : (ofInt range.min).isFinite = true := by
    by_contra hnot
    have hnone : ofInt? range.min = none := if_neg hnot
    rw [ofInt?_eq_none_iff, abs_of_neg range.min_neg] at hnone
    exact absurd hnone (not_le.mpr (neg_lt.mp h))
  have hsome := ofInt?_eq_some _ hdouble
  rw [ofInt_min] at hdouble hsome
  have hfinite := (isFinite_ofRank true _).mp hdouble
  rw [window, hsome]
  simp only [ofRank_mul_lowRadix _ range.binadeSize_le_nearestRank hfinite, neg_ofRank_true]
  rfl

theorem HighRange.exists_window_iff (range : HighRange) :
    (∃ ends, range.window = .ok ends) ↔ -(2 ^ 1024 - 2 ^ 970) < range.min := by
  refine ⟨?_, fun h => ⟨_, range.window_of_near h⟩⟩
  rintro ⟨ends, hends⟩
  by_contra hfar
  rw [range.window_of_far (not_lt.mp hfar)] at hends
  cases hends

/-- The window is infinite from the bound on whose number of seconds rounds
    past the greatest double. -/
theorem HighRange.exists_window (range : HighRange)
    (h : -(2 ^ 1024 - 2 ^ 970) < range.min) :
    ∃ rank, range.window = .ok (ofRank true rank, ofRank false rank) ∧
      (finiteCount ≤ rank ↔ range.min ≤ -(2 ^ 1008 - 2 ^ 954)) := by
  have hcount : finiteCount = (1007 + 1024) * binadeSize + 16 * binadeSize := by decide
  have hpos : (0 : Rat) < -range.min := one_pos.trans_le range.one_le_neg_min
  have hcast : range.min ≤ -(2 ^ 1008 - 2 ^ 954)
      ↔ (2 : Rat) ^ 1008 - (2 : Rat) ^ 954 ≤ -range.min := by
    rw [le_neg, ← Int.cast_neg, ← Int.cast_le (R := Rat)]
    simp only [Int.cast_sub, Int.cast_pow, Int.cast_ofNat]
  refine ⟨range.windowRank, range.window_of_near h, ?_⟩
  rw [windowRank, hcount, Nat.add_le_add_iff_right, two_pow_le_nearestRank_iff 1007 _ hpos,
    hcast, show ((1007 : Nat) : Int) - 53 = (954 : Nat) by rfl, zpow_natCast]

/-- A finite double lies in a window if the ends are around it. Those that are
    infinite are around all of them. -/
theorem Binary64.within_of_finite (x : Binary64) (hx : x.isFinite = true) (rank : Nat) :
    x.within (ofRank true rank) (ofRank false rank) = true
      ↔ -rankValue rank ≤ x.value ∧ x.value < rankValue rank := by
  cases x with
  | nan _ | infinite _ => cases hx
  | finite s a =>
      unfold within ofRank
      split_ifs with h
      · simp only [le, lt, Bool.and_eq_true, decide_eq_true_eq]
        rfl
      · have hlt : |signedValue s a| < rankValue rank := by
          rw [abs_signedValue]
          exact rankValue_strictMono (a.isLt.trans_le (not_lt.mp h))
        rw [abs_lt] at hlt
        exact iff_of_true rfl ⟨hlt.1.le, hlt.2⟩

/-- What is no finite double lies in no window, except for the negative
    infinity in an infinite one. -/
theorem Binary64.within_of_not_finite (x : Binary64) (hx : x.isFinite = false) (rank : Nat) :
    x.within (ofRank true rank) (ofRank false rank) = true
      ↔ x = .infinite true ∧ finiteCount ≤ rank := by
  unfold within ofRank
  cases x with
  | finite _ _ => cases hx
  | nan negative => split_ifs <;> simp [le, lt]
  | infinite negative =>
      split_ifs with h
      · simp [le, lt, h]
      · cases negative <;> simp [le, lt, not_lt.mp h]

/-- All finite doubles are below the power of two that the next binade would
    begin with. -/
theorem Binary64.abs_value_lt (x : Binary64) (hx : x.isFinite = true) :
    |x.value| < (2 : Rat) ^ (1024 : Int) := by
  cases x with
  | nan _ | infinite _ => cases hx
  | finite s a =>
      rw [value, abs_signedValue, ← rankValue_finiteCount]
      exact rankValue_strictMono a.isLt

/-- The high digit of a double is far shorter than a numeral may be. -/
theorem Components.hasNumeral_of_ofFloat? (x : Binary64) (c : Components)
    (h : ofFloat? x = some c) : hasNumeral c.normalize.high = true := by
  have hx : x.isFinite = true := by
    rw [← (ofFloatChecked?_eq x).2, h]
    rfl
  rcases exists_ofFloatChecked? x hx with ⟨c', -, hc', hnear, -⟩
  rw [h, Option.some.injEq] at hc'
  subst hc'
  have hcount : |(c.picoseconds : Rat)| < (2 : Rat) ^ 1066 := by
    have hsize : |x.value * 1000000000000| ≤ (2 : Rat) ^ (1024 : Int) * 2 ^ 40 := by
      rw [abs_mul]
      exact mul_le_mul (x.abs_value_lt hx).le (by norm_num) (abs_nonneg _) (by positivity)
    have hseven : (2 : Rat) ^ 3 ≤ 2 ^ 1064 := pow_le_pow_right₀ (by norm_num) (by norm_num)
    have hbound : (2 : Rat) ^ (1024 : Int) * 2 ^ 40 = 2 ^ 1064 := by
      rw [show (1024 : Int) = (1024 : Nat) by rfl, zpow_natCast, ← pow_add]
    have hfour : (2 : Rat) ^ 1066 = 2 ^ 2 * 2 ^ 1064 := pow_add 2 2 1064
    have htriangle := abs_sub_abs_le_abs_sub (c.picoseconds : Rat) (x.value * 1000000000000)
    rw [hbound] at hsize
    rw [hfour]
    generalize (2 : Rat) ^ 1064 = bound at hsize hseven ⊢
    norm_num at hseven ⊢
    linarith only [hnear, htriangle, hsize, hseven]
  have hcast (k : Nat) (h : |(c.picoseconds : Rat)| < (2 : Rat) ^ k) :
      |c.picoseconds| < 2 ^ k := by exact_mod_cast h
  have hlong := hasNumeral_of_abs_lt (by decide) (hcast 1066 hcount)
  -- The high digit is a floor of the count.
  refine hasNumeral_of_natAbs_le ?_ hlong
  rw [Timestamp.high_eq, c.picoseconds_normalize]
  omega

namespace Decoded

/-- What a double decodes to where the range has a window. -/
theorem ofFloat_of_near (range : HighRange) (x : Binary64)
    (hnear : -(2 ^ 1024 - 2 ^ 970) < range.min) :
    (x = .infinite true ∧ range.min ≤ -(2 ^ 1008 - 2 ^ 954) ∧
        ofFloat range x = .error (.conversion .infinityNotInteger)) ∨
      ¬ (x = .infinite true ∧ range.min ≤ -(2 ^ 1008 - 2 ^ 954)) ∧
        ∃ d : Decoded, ofFloat range x = d.worded ∧
          (d.kind? = none ∨ d.kind? = some .outOfRange) ∧
          (x.isFinite = false → d.kind? = some .outOfRange) ∧
          (range.isShowable = true → d.isShowable = true) := by
  rcases HighRange.exists_window range hnear with ⟨rank, hwindow, hinfinite⟩
  rw [ofFloat_of_window range x _ _ hwindow]
  rcases Components.ofFloatChecked?_eq x with ⟨-, hplaces⟩
  rcases hx : x.isFinite with _ | _
  · rw [hx, Option.isSome_eq_false_iff, Option.isNone_iff_eq_none] at hplaces
    rw [hplaces]
    by_cases hin : x.within (ofRank true rank) (ofRank false rank) = true
    · rw [if_pos hin]
      rw [within_of_not_finite x hx rank, hinfinite] at hin
      exact Or.inl ⟨hin.1, hin.2, rfl⟩
    · rw [if_neg hin]
      rw [within_of_not_finite x hx rank, hinfinite] at hin
      exact Or.inr ⟨hin, _, (worded_of_isShowable rfl).symm, Or.inr rfl, fun _ => rfl, fun _ => rfl⟩
  · rw [hx] at hplaces
    rcases Option.isSome_iff_exists.mp hplaces with ⟨c, hc⟩
    have hfinite : ¬ (x = .infinite true ∧ range.min ≤ -(2 ^ 1008 - 2 ^ 954)) := by
      rintro ⟨rfl, -⟩
      cases hx
    rw [hc]
    refine Or.inr ⟨hfinite, ?_⟩
    split_ifs
    · refine ⟨_, rfl, ?_, nofun, fun hrange => ?_⟩
      · rw [kind?_checked]
        split_ifs
        · exact Or.inl rfl
        · exact Or.inr rfl
      · rw [isShowable_checked]
        exact Or.inr ⟨Components.hasNumeral_of_ofFloat? x c hc, hrange⟩
    · exact ⟨_, (worded_of_isShowable rfl).symm, Or.inr rfl, nofun, fun _ => rfl⟩

/-- What it takes for a double to decode to a time: a window that it lies in,
    and places whose high digit is in the range. -/
theorem ofFloat_eq_success_iff (range : HighRange) (x : Binary64) (t : Timestamp) (n : Int) :
    ofFloat range x = .ok (.success t n)
      ↔ -(2 ^ 1024 - 2 ^ 970) < range.min ∧
        x.within (ofRank true range.windowRank) (ofRank false range.windowRank) = true ∧
        ∃ c, Components.ofFloat? x = some c ∧ c.normalize = t ∧ t.high ∈ range ∧ n = 4 := by
  by_cases hnear : -(2 ^ 1024 - 2 ^ 970) < range.min
  · rw [ofFloat_of_window range x _ _ (range.window_of_near hnear)]
    split_ifs with hin
    · rcases Components.ofFloat? x with _ | c
      · exact iff_of_false nofun (by rintro ⟨-, -, c, hc, -⟩; cases hc)
      · rw [worded_eq_success_iff, checked_eq_success_iff]
        constructor
        · rintro ⟨hmem, rfl, rfl⟩
          exact ⟨hnear, hin, c, rfl, rfl, hmem, rfl⟩
        · rintro ⟨-, -, _, ⟨⟩, rfl, hmem, rfl⟩
          exact ⟨hmem, rfl, rfl⟩
    · exact iff_of_false nofun (fun h => hin h.2.1)
  · rw [ofFloat_of_no_window range x _ (range.window_of_far (not_lt.mp hnear))]
    exact iff_of_false nofun (fun h => hnear h.1)

end Decoded

/-- A double decodes as the conversion of its value goes, without a sample. -/
theorem Datum.outcome_decode_float (range : HighRange) (x : Binary64) (clock : Clock) :
    outcome ((Datum.float x).decode range) clock = (Decoded.ofFloat range x, clock) :=
  rfl

/-- Which data stop a decoding, and with what. A double does if the lower
    bound of the range is beyond all doubles, and the negative infinity if the
    number of seconds at that bound is. In every other case there is a result,
    of a double a time or that it is out of range, and decoding returns it or
    stops because it cannot be put in words. A double stops it in this way only
    if the range cannot be named, nil exactly if it is not in the range and one
    of the two cannot be named, and everything else exactly if it is no time and
    it cannot be said why. -/
theorem Datum.outcome_decode (range : HighRange) (spec : Datum) (clock : Clock) :
    (∀ x, spec = .float x → range.min ≤ -(2 ^ 1024 - 2 ^ 970) →
      outcome (spec.decode range) clock = (.error (.conversion .integerTooLarge), clock)) ∧
    (spec = .float (.infinite true) → -(2 ^ 1024 - 2 ^ 970) < range.min →
      range.min ≤ -(2 ^ 1008 - 2 ^ 954) →
      outcome (spec.decode range) clock = (.error (.conversion .infinityNotInteger), clock)) ∧
    ((∀ x, spec = .float x → -(2 ^ 1024 - 2 ^ 970) < range.min ∧
        (x = .infinite true → -(2 ^ 1008 - 2 ^ 954) < range.min)) →
      ∃ (d : Decoded) (after : Clock), outcome (spec.decode range) clock = (d.worded, after) ∧
        (∀ x, spec = .float x → (x.isFinite = false → d.kind? = some .outOfRange) ∧
          (x.isFinite = true → d.kind? = none ∨ d.kind? = some .outOfRange) ∧
          (range.isShowable = true → d.isShowable = true)) ∧
        (spec = .nil → ∀ high, (Components.ofSample clock.next).normalize.high = high →
          (d.isShowable = true ↔ high ∈ range ∨ range.CanName high)) ∧
        (spec ≠ .nil → (∀ x, spec ≠ .float x) →
          (d.isShowable = true ↔ spec.Answerable range))) := by
  refine ⟨?_, ?_, ?_⟩
  · rintro x rfl hfar
    rw [outcome_decode_float, Decoded.ofFloat_of_no_window range x _ (range.window_of_far hfar)]
  · rintro rfl hnear hinfinite
    rw [outcome_decode_float]
    rcases Decoded.ofFloat_of_near range (.infinite true) hnear with ⟨-, -, h⟩ | ⟨hnot, -⟩
    · rw [h]
    · exact absurd ⟨rfl, hinfinite⟩ hnot
  · intro hsafe
    by_cases hnil : spec = .nil
    · subst hnil
      refine ⟨_, clock.advance, rfl, nofun, ?_, fun h => absurd rfl h⟩
      rintro - _ rfl
      exact Decoded.isShowable_checked range _ 4
    by_cases hfloat : ∃ x, spec = .float x
    · rcases hfloat with ⟨x, rfl⟩
      rcases hsafe x rfl with ⟨hnear, hfinite⟩
      rcases Decoded.ofFloat_of_near range x hnear with
        ⟨hx, hinfinite, -⟩ | ⟨-, d, hd, hkind, hout, hshow⟩
      · exact absurd hinfinite (not_le.mpr (hfinite hx))
      · refine ⟨d, clock, by rw [outcome_decode_float, hd], ?_, nofun, fun _ h => absurd rfl (h x)⟩
        rintro _ ⟨⟩
        exact ⟨hout, fun _ => hkind, hshow⟩
    have hfloat' : ∀ x, spec ≠ .float x := fun x hx => hfloat ⟨x, hx⟩
    rcases decode_cases range spec hnil hfloat' with ⟨f, c, hf, hc, hdecode⟩ | ⟨hnone, hdecode⟩
    · refine ⟨_, clock, by rw [hdecode]; rfl, fun x hx => absurd hx (hfloat' x),
        fun h => absurd h hnil, fun _ _ => ?_⟩
      rw [answerable_iff_of_hold range spec f c hf hc]
      exact Decoded.isShowable_checked range _ _
    · refine ⟨_, clock, by rw [hdecode]; rfl, fun x hx => absurd hx (hfloat' x),
        fun h => absurd h hnil, fun _ _ => ?_⟩
      rw [answerable_iff_of_not_hold range spec hnone]
      rfl

/-- The range from a negative power of two up to zero. -/
def HighRange.fromPower (k : Nat) : HighRange where
  min := -2 ^ k
  max := 0
  min_neg := neg_neg_of_pos (pow_pos two_pos k)
  min_le_max := neg_nonpos.mpr (pow_pos two_pos k).le

theorem HighRange.fromPower_le (j k n : Nat) (h : j ≤ n) :
    (fromPower n).min ≤ -(2 ^ j - 2 ^ k) := by
  have hle : (2 : Int) ^ j ≤ 2 ^ n := pow_le_pow_right₀ (by omega) h
  have hpos : (0 : Int) < 2 ^ k := pow_pos two_pos k
  change -(2 : Int) ^ n ≤ _
  linarith

theorem HighRange.lt_fromPower (k n : Nat) (hk : k ≤ n) :
    -(2 ^ (n + 2) - 2 ^ k) < (fromPower n).min := by
  have hle : (2 : Int) ^ k ≤ 2 ^ n := pow_le_pow_right₀ (by omega) hk
  have hpos : (0 : Int) < 2 ^ n := pow_pos two_pos n
  change _ < -(2 : Int) ^ n
  rw [pow_add]
  linarith

/-- A range that begins no earlier than the usual one has a window. -/
theorem HighRange.near_of_fixnumMin_le (range : HighRange) (h : fixnumMin ≤ range.min) :
    -(2 ^ 1024 - 2 ^ 970) < range.min := by
  have hpow : (2 : Int) ^ 61 ≤ 2 ^ 1022 := pow_le_pow_right₀ (by omega) (by omega)
  exact (lt_fromPower 970 1022 (by omega)).trans_le ((neg_le_neg hpow).trans h)

/-- One and a half seconds do not decode within a range that begins beyond all
    doubles, nor does the negative infinity within one that begins two binades
    above that. -/
theorem Datum.decode_stops :
    let clock : Clock := { tick := fun _ => ⟨0, 0⟩ }
    outcome ((Datum.float (ofBits 0x3ff8000000000000)).decode (.fromPower 1024)) clock
        = (.error (.conversion .integerTooLarge), clock) ∧
      outcome ((Datum.float (.infinite true)).decode (.fromPower 1022)) clock
        = (.error (.conversion .infinityNotInteger), clock) ∧
      ¬ ∀ (range : HighRange) (spec : Datum) (before : Clock),
        ∃ d after, Returns (spec.decode range) before d after := by
  intro clock
  have hfar (x : Binary64) : outcome ((Datum.float x).decode (.fromPower 1024)) clock
      = (.error (.conversion .integerTooLarge), clock) := by
    rw [outcome_decode_float, Decoded.ofFloat_of_no_window _ x _
      (HighRange.window_of_far _ (HighRange.fromPower_le 1024 970 1024 le_rfl))]
  refine ⟨hfar _, ?_, fun hreturns => ?_⟩
  · have hnear : -(2 ^ 1024 - 2 ^ 970) < (HighRange.fromPower 1022).min :=
      HighRange.lt_fromPower 970 1022 (by omega)
    rcases Decoded.ofFloat_of_near _ (.infinite true) hnear with ⟨-, -, h⟩ | ⟨hnot, -⟩
    · rw [outcome_decode_float, h]
    · exact absurd ⟨rfl, HighRange.fromPower_le 1008 954 1022 (by omega)⟩ hnot
  · rcases hreturns (.fromPower 1024) (.float (.nan false)) clock with ⟨d, after, h⟩
    rw [Returns, hfar] at h
    cases h

end PicoTime
