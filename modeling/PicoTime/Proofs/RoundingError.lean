import PicoTime.Proofs.Rounding

/-!
# How Far Rounding Goes

Rounding moves a number by at most half a spacing, and the spacing depends on
the size of the number alone. So for each operation a power of two that bounds
the exact result bounds the error, 54 binary places below it.

Two kinds of numbers are not moved at all: the values of doubles, and among
them the integers of no more than 53 binary places. And a number that is
moved ends at the nearest double, so it is enough to be within a quarter of a
spacing of a double to be rounded to it, on either side of a power of two.

A chain of operations is then followed by saying of each double in it what it
is exactly, what it is near to, or what it has been rounded from.

## Main definitions

* `Binary64.Exactly`: The finite double that has the number for its value.
* `Binary64.Near`: A finite double that is near the number.
* `Binary64.Rounds`: The number has been rounded to the double.

## Theorems

* `abs_sub_nearestRank_le`: The nearest rank is half a spacing away at most.
* `nearestRank_eq`: A rank that is close enough is the nearest.
* `Binary64.Rounds.near`, `Binary64.Rounds.near_max`: The error is bounded by
  the size.
* `Binary64.Rounds.exactly_intCast`: Integers are not moved.
* `Binary64.Rounds.eq_of_near`: What is close enough to a double is rounded to
  it.
-/

namespace PicoTime

/-! ## Spacings -/

/-- Later ranks are spaced no closer. -/
theorem spacing_mono {a b : Nat} (h : a ≤ b) : spacing a ≤ spacing b := by
  have hdiv : a / binadeSize ≤ b / binadeSize := Nat.div_le_div_right h
  exact zpow_le_zpow_right₀ (by norm_num) (by omega)

/-- The spacing just below a power of two. -/
theorem spacing_below_two_pow (k place : Nat) (hplace : place < binadeSize) :
    spacing ((k + 1022) * binadeSize + place) = (2 : Rat) ^ ((k : Int) - 53) := by
  have hexp : ((k + 1021 : Nat) : Int) - 1074 = (k : Int) - 53 := by
    push_cast
    ring
  rw [spacing_later (k + 1021) place hplace, hexp]

theorem two_pow_sub_53 (k : Nat) :
    (2 : Rat) ^ ((k : Int) - 53) = 2 * (2 : Rat) ^ ((k : Int) - 54) := by
  rw [← zpow_one_add₀ (by norm_num)]
  congr 1
  ring

/-- From a power of two on, two values are no closer than just below it. -/
theorem two_pow_le_rankValue_sub (k a b : Nat) (hab : a < b)
    (hb : (k + 1023) * binadeSize ≤ b) :
    (2 : Rat) ^ ((k : Int) - 53) ≤ rankValue b - rankValue a := by
  have hpos := binadeSize_pos
  have hsplit : (k + 1023) * binadeSize = (k + 1022) * binadeSize + binadeSize := by ring
  rcases b with _ | b
  · omega
  have hvalue := rankValue_strictMono.monotone (show a ≤ b by omega)
  have hspacing := spacing_mono (show (k + 1022) * binadeSize + 0 ≤ b by omega)
  rw [spacing_below_two_pow k 0 hpos] at hspacing
  rw [rankValue_succ]
  linarith

/-- The nearest rank is half a spacing away at most. -/
theorem two_mul_abs_sub_nearestRank_le (x : Rat) (hx : 0 < x) :
    2 * |x - rankValue (nearestRank x)| ≤ spacing (rankBelow x) := by
  rcases rankBelow_spec x hx with ⟨hle, hlt⟩
  have hsucc := rankValue_succ (rankBelow x)
  rcases nearestRank_mem x with hdown | hup
  · have hlower := nearestRank_lower x hdown
    rw [hdown, abs_of_nonneg (by linarith)]
    linarith
  · have hupper := nearestRank_upper x hup
    rw [hup, abs_of_neg (by linarith)]
    linarith

/-- The nearest rank to a number that a power of two bounds. -/
theorem abs_sub_nearestRank_le (x : Rat) (hx : 0 < x) (k : Nat) (h : x ≤ (2 : Rat) ^ k) :
    |x - rankValue (nearestRank x)| ≤ (2 : Rat) ^ ((k : Int) - 54) := by
  have hpos := binadeSize_pos
  rcases h.eq_or_lt with heq | hlt
  · -- The power of two is itself the value of a rank.
    have hrank : 0 < (k + 1023) * binadeSize := Nat.mul_pos (by omega) hpos
    rw [heq, ← rankValue_two_pow, nearestRank_rankValue _ hrank, sub_self, abs_zero]
    positivity
  · have hbelow : rankBelow x < (k + 1023) * binadeSize := by
      rw [← rankValue_two_pow] at hlt
      exact rankValue_strictMono.lt_iff_lt.mp ((rankBelow_spec x hx).1.trans_lt hlt)
    have hsplit : (k + 1023) * binadeSize = (k + 1022) * binadeSize + binadeSize := by ring
    have hspacing := spacing_mono
      (show rankBelow x ≤ (k + 1022) * binadeSize + (binadeSize - 1) by omega)
    rw [spacing_below_two_pow k _ (by omega)] at hspacing
    have hhalf := two_pow_sub_53 k
    have herror := two_mul_abs_sub_nearestRank_le x hx
    linarith

/-- A rank whose value is within a quarter of a spacing is the nearest. -/
theorem nearestRank_eq (x : Rat) (hx : 0 < x) (k rank : Nat)
    (hrank : (k + 1023) * binadeSize ≤ rank)
    (h : |x - rankValue rank| < (2 : Rat) ^ ((k : Int) - 54)) : nearestRank x = rank := by
  by_contra hne
  have hgap : (2 : Rat) ^ ((k : Int) - 53) ≤ |rankValue rank - rankValue (nearestRank x)| := by
    rcases Nat.lt_or_gt_of_ne hne with hlow | hhigh
    · exact (two_pow_le_rankValue_sub k _ _ hlow hrank).trans (le_abs_self _)
    · rw [abs_sub_comm]
      exact (two_pow_le_rankValue_sub k _ _ hhigh (hrank.trans hhigh.le)).trans (le_abs_self _)
  have hhalf := two_pow_sub_53 k
  -- Neither rank is further away than the one that is close.
  have hnearest := (nearestRank_nearest x hx rank).1
  have htriangle := abs_sub_le (rankValue rank) x (rankValue (nearestRank x))
  rw [abs_sub_comm (rankValue rank) x] at htriangle
  linarith

/-! ## Integers -/

/-- A multiple of a power of two is the value of a rank, as long as it takes no
    more than two binades of multiples. -/
theorem exists_rankValue_mul (k q : Nat) (hq : q < 2 * binadeSize) :
    ∃ rank < (k + 2) * binadeSize, rankValue rank = q * (2 : Rat) ^ ((k : Int) - 1074) := by
  induction k generalizing q with
  | zero =>
      refine ⟨_, ?_, (rankValue_of_spacings (-1074) q le_rfl hq (Or.inr rfl)).1⟩
      rw [neg_add_cancel, Int.toNat_zero, Nat.zero_mul, Nat.zero_add, Nat.zero_add]
      exact hq
  | succ k ih =>
      have hsplit : (k + 1 + 2) * binadeSize = (k + 1) * binadeSize + 2 * binadeSize := by ring
      by_cases hfull : binadeSize ≤ q
      · refine ⟨_, ?_, (rankValue_of_spacings (((k + 1 : Nat) : Int) - 1074) q (by omega) hq
          (Or.inl hfull)).1⟩
        rw [sub_add_cancel, Int.toNat_natCast]
        omega
      · -- Twice as many multiples of half the power.
        rcases ih (2 * q) (by omega) with ⟨rank, hrank, hvalue⟩
        refine ⟨rank, hrank.trans ?_, hvalue.trans ?_⟩
        · exact Nat.mul_lt_mul_of_pos_right (by omega) binadeSize_pos
        · have hexp : ((k + 1 : Nat) : Int) - 1074 = ((k : Int) - 1074) + 1 := by omega
          rw [hexp, zpow_add_one₀ (by norm_num)]
          push_cast
          ring

/-- Integers that have no more binary places than a double are values of
    ranks. -/
theorem exists_rankValue_natCast (n : Nat) (h : n ≤ 2 ^ 53) :
    ∃ rank < finiteCount, rankValue rank = n := by
  rcases h.eq_or_lt with rfl | hlt
  · exact ⟨(53 + 1023) * binadeSize, by decide, by rw [rankValue_two_pow]; norm_num⟩
  have hcount : (1074 + 2) * binadeSize < finiteCount := by decide
  rcases exists_rankValue_mul 1074 n hlt with ⟨rank, hrank, hvalue⟩
  refine ⟨rank, hrank.trans hcount, hvalue.trans ?_⟩
  rw [Nat.cast_ofNat, sub_self, zpow_zero, mul_one]

namespace Binary64

/-- The finite double that has the number for its value. -/
def Exactly (q : Rat) (x : Binary64) : Prop :=
  x.isFinite = true ∧ x.value = q

/-- A finite double that is no further from the number than the error. -/
def Near (error q : Rat) (x : Binary64) : Prop :=
  x.isFinite = true ∧ |x.value - q| ≤ error

/-- The number has been rounded to the double. -/
def Rounds (q : Rat) (x : Binary64) : Prop :=
  ∃ zeroSign, x = round zeroSign q

theorem exactly_of_isFinite (x : Binary64) (hx : x.isFinite = true) : x.Exactly x.value :=
  ⟨hx, rfl⟩

theorem rounds_round (zeroSign : Bool) (q : Rat) : (round zeroSign q).Rounds q :=
  ⟨zeroSign, rfl⟩

theorem value_ofRank (negative : Bool) (rank : Nat) (h : rank < finiteCount) :
    (ofRank negative rank).value = signedValue negative rank := by
  rw [ofRank, dif_pos h]
  rfl

/-! ## Operations -/

variable {x y : Binary64} {p q : Rat}

theorem Exactly.add (hx : x.Exactly p) (hy : y.Exactly q) : (x + y).Rounds (p + q) := by
  rcases hx with ⟨hx, rfl⟩
  rcases hy with ⟨hy, rfl⟩
  cases x <;> cases y <;> simp only [isFinite, Bool.false_eq_true] at hx hy
  exact ⟨_, rfl⟩

theorem Exactly.sub (hx : x.Exactly p) (hy : y.Exactly q) : (x - y).Rounds (p - q) := by
  rcases hx with ⟨hx, rfl⟩
  rcases hy with ⟨hy, rfl⟩
  exact sub_eq_round x y hx hy

theorem Exactly.mul (hx : x.Exactly p) (hy : y.Exactly q) : (x * y).Rounds (p * q) := by
  rcases hx with ⟨hx, rfl⟩
  rcases hy with ⟨hy, rfl⟩
  exact mul_eq_round x y hx hy

theorem Exactly.div (hx : x.Exactly p) (hy : y.Exactly q) (hq : q ≠ 0) :
    (x / y).Rounds (p / q) := by
  rcases hx with ⟨hx, rfl⟩
  rcases hy with ⟨hy, rfl⟩
  exact div_eq_round x y hx hy hq

/-! ## The error of one rounding -/

/-- A number that a power of two bounds is rounded to a double near it. -/
theorem Rounds.near (h : x.Rounds q) (k : Nat) (hk : k ≤ 1023) (hq : |q| ≤ (2 : Rat) ^ k) :
    x.Near ((2 : Rat) ^ ((k : Int) - 54)) q := by
  rcases h with ⟨zeroSign, rfl⟩
  have hfinite := (atMost_round_two_pow zeroSign q k hk hq).1
  refine ⟨hfinite, ?_⟩
  rcases lt_trichotomy q 0 with hneg | rfl | hpos
  · rw [abs_of_neg hneg] at hq
    rw [round_of_neg zeroSign q hneg] at hfinite ⊢
    have herror := abs_sub_nearestRank_le (-q) (neg_pos.mpr hneg) k hq
    rw [value_ofRank _ _ ((isFinite_ofRank _ _).mp hfinite)]
    have hflip : signedValue true (nearestRank (-q)) - q = -q - rankValue (nearestRank (-q)) := by
      change -rankValue (nearestRank (-q)) - q = _
      ring
    rw [hflip]
    exact herror
  · have hzero := sameSide_round zeroSign 0
    rw [sub_zero, le_antisymm (hzero.2 le_rfl) (hzero.1 le_rfl), abs_zero]
    positivity
  · rw [abs_of_pos hpos] at hq
    rw [round_of_pos zeroSign q hpos] at hfinite ⊢
    rw [value_ofRank _ _ ((isFinite_ofRank _ _).mp hfinite), abs_sub_comm]
    exact abs_sub_nearestRank_le q hpos k hq

/-- The power of two just above the number serves, or two for a number that
    is less than one. -/
theorem Rounds.near_max (h : x.Rounds q) (hq : |q| ≤ (2 : Rat) ^ 1022) :
    x.Near ((2 : Rat) ^ (-53 : Int) * max 1 |q|) q := by
  rcases exists_nat_pow_near (le_max_left 1 |q|) one_lt_two with ⟨k, hle, hlt⟩
  have hk : (2 : Rat) ^ k ≤ (2 : Rat) ^ 1022 :=
    hle.trans (max_le (one_le_pow₀ one_le_two) hq)
  rw [pow_le_pow_iff_right₀ one_lt_two] at hk
  rcases h.near (k + 1) (by omega) ((le_max_right _ _).trans hlt.le) with ⟨hfinite, herror⟩
  have hexp : ((k + 1 : Nat) : Int) - 54 = -53 + k := by
    push_cast
    ring
  rw [hexp, zpow_add₀ (by norm_num), zpow_natCast] at herror
  exact ⟨hfinite, herror.trans (mul_le_mul_of_nonneg_left hle (by positivity))⟩

/-- It does not leave the bound either. -/
theorem Rounds.atMost (h : x.Rounds q) (k : Nat) (hk : k ≤ 1023) (hq : |q| ≤ (2 : Rat) ^ k) :
    x.AtMost ((2 : Rat) ^ k) := by
  rcases h with ⟨zeroSign, rfl⟩
  exact atMost_round_two_pow zeroSign q k hk hq

/-- Rounding leaves the value of a finite double alone. -/
theorem Rounds.exactly (h : x.Rounds q) (hy : y.Exactly q) : x.Exactly q := by
  rcases h with ⟨zeroSign, rfl⟩
  rcases hy with ⟨hy, rfl⟩
  refine ⟨?_, value_round zeroSign y⟩
  cases y with
  | nan _ | infinite _ => cases hy
  | finite negative rank =>
      exact (atMost_round zeroSign _ rank rank.isLt (abs_signedValue negative rank).le).1

/-- A number is a double if its magnitude is the value of a finite rank. -/
theorem exists_exactly_of_abs (q : Rat) (rank : Nat) (hrank : rank < finiteCount)
    (h : rankValue rank = |q|) : ∃ y : Binary64, y.Exactly q := by
  rcases le_total 0 q with hsign | hsign
  · rw [abs_of_nonneg hsign] at h
    exact ⟨finite false ⟨rank, hrank⟩, rfl, h⟩
  · rw [abs_of_nonpos hsign] at h
    exact ⟨finite true ⟨rank, hrank⟩, rfl, neg_eq_iff_eq_neg.mpr h⟩

/-- An integer of no more binary places than a double is one. -/
theorem exists_exactly_intCast (n : Int) (hn : |n| ≤ 2 ^ 53) : ∃ y : Binary64, y.Exactly n := by
  rw [Int.abs_eq_natAbs] at hn
  rcases exists_rankValue_natCast n.natAbs (by exact_mod_cast hn) with ⟨rank, hrank, hvalue⟩
  refine exists_exactly_of_abs n rank hrank ?_
  rw [hvalue, Nat.cast_natAbs, Int.cast_abs]

/-- Rounding leaves such an integer alone. -/
theorem Rounds.exactly_intCast {n : Int} (h : x.Rounds n) (hn : |n| ≤ 2 ^ 53) : x.Exactly n := by
  rcases exists_exactly_intCast n hn with ⟨y, hy⟩
  exact h.exactly hy

/-- A number close enough to a double is rounded to it. -/
theorem Rounds.eq_of_near (h : x.Rounds q) (hy : y.isFinite = true) (k : Nat)
    (hk : (2 : Rat) ^ k ≤ |y.value|) (hq : |q - y.value| < (2 : Rat) ^ ((k : Int) - 54)) :
    x = y := by
  rcases h with ⟨zeroSign, rfl⟩
  have hsmall : (2 : Rat) ^ ((k : Int) - 54) ≤ (2 : Rat) ^ k := by
    rw [← zpow_natCast]
    exact zpow_le_zpow_right₀ (by norm_num) (by omega)
  cases y with
  | nan _ | infinite _ => cases hy
  | finite negative rank =>
      rw [value, abs_signedValue, ← rankValue_two_pow] at hk
      have hrank := rankValue_strictMono.le_iff_le.mp hk
      rw [rankValue_two_pow] at hk
      cases negative with
      | false =>
          change |q - rankValue rank| < _ at hq
          have hpos : 0 < q := by
            have := (abs_lt.mp hq).1
            linarith
          rw [round_of_pos zeroSign q hpos, nearestRank_eq q hpos k rank hrank hq, ofRank,
            dif_pos rank.isLt]
      | true =>
          change |q - -rankValue rank| < _ at hq
          have hneg : q < 0 := by
            have := (abs_lt.mp hq).2
            linarith
          rw [← abs_neg, show -(q - -rankValue rank) = -q - rankValue rank by ring] at hq
          rw [round_of_neg zeroSign q hneg, nearestRank_eq (-q) (neg_pos.mpr hneg) k rank hrank hq,
            ofRank, dif_pos rank.isLt]

end Binary64

end PicoTime
