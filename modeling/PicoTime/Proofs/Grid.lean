import PicoTime.Proofs.FloatPlaces

/-!
# Grids

The doubles of one binade are the multiples of one power of two, and those
further from zero lie on the same grid, since it only gets coarser. So a number
on the grid of a double that is no further from zero than the double is a
double again. That makes some subtractions exact without a look at their
operands: whoever takes an integer from a double and ends no further from zero
has nothing to round.

Grids also keep numbers apart. A double below an integer is at least one line
below it, and rounding a quotient moves it by much less, which is why the
quotient's integer part may be read off after rounding. For the same reason it
matters which way a number is rounded only next to an integer, and there
rounding can reach the integer but not pass it.

## Main definitions

* `Grid`: The multiples of a power of two.

## Theorems

* `Binary64.exists_grid`, `Binary64.grid_of_two_pow_le`: The grid of a double.
* `Binary64.exists_exactly_of_grid`: Numbers on a grid that are doubles.
* `Binary64.Rounds.exactly_sub_intCast`: Differences that are exact.
* `Binary64.Rounds.mono`: Rounding keeps the order of numbers.
* `Binary64.Rounds.floor_value`: Rounding reaches the next integer at most.
* `Binary64.floor_div_million`: The integer part of a rounded quotient.
-/

namespace PicoTime

/-- The number is a multiple of a power of two. -/
def Grid (e : Int) (q : Rat) : Prop :=
  ∃ n : Int, q = n * (2 : Rat) ^ e

variable {e e' : Int} {p q : Rat}

/-- A coarser grid is part of a finer one. -/
theorem Grid.of_le (h : Grid e q) (hle : e' ≤ e) : Grid e' q := by
  rcases h with ⟨n, rfl⟩
  rcases Int.eq_ofNat_of_zero_le (sub_nonneg.mpr hle) with ⟨k, hk⟩
  have hexp : e = k + e' := by omega
  refine ⟨n * 2 ^ k, ?_⟩
  rw [hexp, zpow_add₀ (by norm_num), zpow_natCast]
  push_cast
  ring

theorem grid_intCast (n : Int) (he : e ≤ 0) : Grid e n :=
  Grid.of_le ⟨n, by rw [zpow_zero, mul_one]⟩ he

theorem Grid.sub (hp : Grid e p) (hq : Grid e q) : Grid e (p - q) := by
  rcases hp with ⟨m, rfl⟩
  rcases hq with ⟨n, rfl⟩
  refine ⟨m - n, ?_⟩
  push_cast
  ring

/-- What is left below an integer stays on the grid. -/
theorem Grid.fract (h : Grid e q) (he : e ≤ 0) : Grid e (Int.fract q) :=
  h.sub (grid_intCast ⌊q⌋ he)

/-- Numbers on a grid are no closer than its lines. -/
theorem Grid.two_zpow_le_sub (hp : Grid e p) (hq : Grid e q) (hlt : p < q) :
    (2 : Rat) ^ e ≤ q - p := by
  have hpow : (0 : Rat) < (2 : Rat) ^ e := zpow_pos (by norm_num) e
  rcases hq.sub hp with ⟨n, hn⟩
  have hpos : (0 : Rat) < n := by
    have hsub : 0 < q - p := sub_pos.mpr hlt
    rw [hn] at hsub
    exact pos_of_mul_pos_left hsub hpow.le
  have hone : (1 : Rat) ≤ n := by exact_mod_cast hpos
  rw [hn]
  exact le_mul_of_one_le_left hpow.le hone

/-! ## Doubles on a grid -/

namespace Binary64

/-- A number on a grid is a double if its lines are not too close for the size
    of the number. -/
theorem exists_exactly_of_grid (h : Grid e q) (hlow : -1074 ≤ e) (hhigh : e ≤ 0)
    (hq : |q| < (2 : Rat) ^ (e + 53)) : ∃ y : Binary64, y.Exactly q := by
  have hpow : (0 : Rat) < (2 : Rat) ^ e := zpow_pos (by norm_num) e
  rcases h with ⟨n, rfl⟩
  rcases Int.eq_ofNat_of_zero_le (by omega : 0 ≤ e + 1074) with ⟨k, hk⟩
  have hexp : e = k - 1074 := by omega
  have hcount : 1076 * binadeSize < finiteCount := by decide
  have hbinades : (k + 2) * binadeSize ≤ 1076 * binadeSize :=
    Nat.mul_le_mul_right _ (by omega)
  have hn : n.natAbs < 2 * binadeSize := by
    rw [abs_mul, abs_of_pos hpow, add_comm, zpow_add₀ (by norm_num)] at hq
    have hlt : |(n : Rat)| < (2 : Rat) ^ (53 : Int) := lt_of_mul_lt_mul_right hq hpow.le
    have hlt' : |n| < 2 ^ 53 := by exact_mod_cast hlt
    rw [Int.abs_eq_natAbs] at hlt'
    have hsize : 2 * binadeSize = 2 ^ 53 := by decide
    omega
  rcases exists_rankValue_mul k n.natAbs hn with ⟨rank, hrank, hvalue⟩
  refine exists_exactly_of_abs _ rank (by omega) ?_
  rw [hvalue, ← hexp, abs_mul, abs_of_pos hpow, Nat.cast_natAbs, Int.cast_abs]

theorem grid_signedValue (negative : Bool) (rank : Nat) (h : Grid e (rankValue rank)) :
    Grid e (signedValue negative rank) := by
  cases negative with
  | false => exact h
  | true =>
      rcases h with ⟨n, hn⟩
      refine ⟨-n, ?_⟩
      rw [Int.cast_neg, neg_mul, ← hn]
      rfl

/-- The values of a binade are on the grid of its spacing. -/
theorem grid_rankValue (binade place : Nat) (hplace : place < binadeSize) :
    Grid ((binade : Int) - 1074) (rankValue ((binade + 1) * binadeSize + place)) :=
  ⟨(binadeSize + place : Nat), by rw [rankValue_later binade place hplace, Int.cast_natCast]⟩

/-- A double from a power of two on is on the grid fifty-two places below. -/
theorem grid_of_two_pow_le (x : Binary64) (k : Nat) (h : (2 : Rat) ^ k ≤ |x.value|) :
    Grid ((k : Int) - 52) x.value := by
  have hpow : (0 : Rat) < (2 : Rat) ^ k := by positivity
  cases x with
  | nan _ | infinite _ =>
      change (2 : Rat) ^ k ≤ |0| at h
      rw [abs_zero] at h
      exact absurd h (not_le.mpr hpow)
  | finite negative rank =>
      rw [value, abs_signedValue, ← rankValue_two_pow] at h
      have hrank := rankValue_strictMono.le_iff_le.mp h
      have hbinade := (Nat.le_div_iff_mul_le binadeSize_pos).mpr hrank
      rw [value]
      refine grid_signedValue negative rank ?_
      have hplace := Nat.mod_lt (rank : Nat) binadeSize_pos
      rw [← Nat.div_add_mod' (rank : Nat) binadeSize]
      rcases hb : (rank : Nat) / binadeSize with _ | binade
      · omega
      · exact (grid_rankValue binade _ hplace).of_le (by omega)

/-- Every finite double is on a grid that is fine enough for its size. An
    integer is on the grid of integers, whatever its size. -/
theorem exists_grid (x : Binary64) (hx : x.isFinite = true) :
    ∃ e, -1074 ≤ e ∧ e ≤ 0 ∧ Grid e x.value ∧ (|x.value| < (2 : Rat) ^ (e + 53) ∨ e = 0) := by
  cases x with
  | nan _ | infinite _ => cases hx
  | finite negative rank =>
      have hplace := Nat.mod_lt (rank : Nat) binadeSize_pos
      rw [value, abs_signedValue, ← Nat.div_add_mod' (rank : Nat) binadeSize]
      generalize (rank : Nat) % binadeSize = place at hplace
      rcases (rank : Nat) / binadeSize with _ | binade
      · -- The first binade has the spacing of the second.
        have hlt : (place : Rat) < (2 : Rat) ^ (53 : Int) := by
          have hsize : binadeSize < 2 ^ 53 := by decide
          exact_mod_cast hplace.trans hsize
        rw [Nat.zero_mul, Nat.zero_add]
        refine ⟨-1074, le_rfl, by norm_num, grid_signedValue negative place
          ⟨place, by rw [rankValue_first place hplace, Int.cast_natCast]⟩, Or.inl ?_⟩
        rw [rankValue_first place hplace, add_comm, zpow_add₀ (by norm_num)]
        exact mul_lt_mul_of_pos_right hlt (zpow_pos (by norm_num) _)
      · have hgrid := grid_signedValue negative _ (grid_rankValue binade place hplace)
        by_cases hlarge : 1074 < binade
        · exact ⟨0, by norm_num, le_rfl, hgrid.of_le (by omega), Or.inr rfl⟩
        · refine ⟨(binade : Int) - 1074, by omega, by omega, hgrid, Or.inl ?_⟩
          have hlt : ((binadeSize + place : Nat) : Rat) < (2 : Rat) ^ (53 : Int) := by
            have hsize : 2 * binadeSize = 2 ^ 53 := by decide
            exact_mod_cast (by omega : binadeSize + place < 2 ^ 53)
          rw [rankValue_later binade place hplace, add_comm _ (53 : Int),
            zpow_add₀ (by norm_num)]
          exact mul_lt_mul_of_pos_right hlt (zpow_pos (by norm_num) _)

variable {x y : Binary64}

/-- Taking an integer from a double is exact if what is left is no further from
    zero than the double. -/
theorem Rounds.exactly_sub_intCast {n : Int} (h : y.Rounds (x.value - n))
    (hx : x.isFinite = true) (hle : |x.value - n| ≤ |x.value|)
    (hsmall : |x.value - n| < (2 : Rat) ^ (53 : Int)) : y.Exactly (x.value - n) := by
  rcases exists_grid x hx with ⟨e, hlow, hhigh, hgrid, hsize⟩
  have hq : |x.value - n| < (2 : Rat) ^ (e + 53) := by
    rcases hsize with hsize | rfl
    · exact hle.trans_lt hsize
    · exact hsmall
  rcases exists_exactly_of_grid (hgrid.sub (grid_intCast n hhigh)) hlow hhigh hq with ⟨z, hz⟩
  exact h.exactly hz

/-! ## The order of numbers -/

theorem Rounds.sameSide (h : x.Rounds q) : SameSide q x.value := by
  rcases h with ⟨zeroSign, rfl⟩
  exact sameSide_round zeroSign q

/-- Rounding keeps the order of numbers. -/
theorem Rounds.mono (hx : x.Rounds p) (hy : y.Rounds q) (hpq : p ≤ q)
    (hxfinite : x.isFinite = true) (hyfinite : y.isFinite = true) : x.value ≤ y.value := by
  have hxside := hx.sameSide
  have hyside := hy.sameSide
  rcases hx with ⟨s, rfl⟩
  rcases hy with ⟨t, rfl⟩
  rcases lt_or_ge p 0 with hneg | hnonneg
  · rcases lt_or_ge q 0 with hneg' | hnonneg'
    · -- Below zero, more is closer to zero.
      rw [round_of_neg s p hneg] at hxfinite ⊢
      rw [round_of_neg t q hneg'] at hyfinite ⊢
      rw [value_ofRank _ _ ((isFinite_ofRank _ _).mp hxfinite),
        value_ofRank _ _ ((isFinite_ofRank _ _).mp hyfinite)]
      have hrank := nearestRank_mono (-q) (-p) (neg_pos.mpr hneg') (neg_le_neg hpq)
      exact neg_le_neg (rankValue_strictMono.monotone hrank)
    · exact (hxside.2 hneg.le).trans (hyside.1 hnonneg')
  · rcases hnonneg.eq_or_lt with rfl | hpos
    · exact (hxside.2 le_rfl).trans (hyside.1 hpq)
    · have hpos' : 0 < q := hpos.trans_le hpq
      rw [round_of_pos s p hpos] at hxfinite ⊢
      rw [round_of_pos t q hpos'] at hyfinite ⊢
      rw [value_ofRank _ _ ((isFinite_ofRank _ _).mp hxfinite),
        value_ofRank _ _ ((isFinite_ofRank _ _).mp hyfinite)]
      exact rankValue_strictMono.monotone (nearestRank_mono p q hpos hpq)

/-- The double of a number is rounded to itself. -/
theorem Exactly.rounds_value (hy : y.Exactly p) :
    (round false p).isFinite = true ∧ (round false p).value = p :=
  (rounds_round false p).exactly hy

/-- Rounding does not fall below a double. -/
theorem Rounds.le_value (h : x.Rounds q) (hx : x.isFinite = true) (hy : y.Exactly p)
    (hpq : p ≤ q) : p ≤ x.value := by
  rcases hy.rounds_value with ⟨hfinite, hvalue⟩
  have hle := (rounds_round false p).mono h hpq hfinite hx
  rwa [hvalue] at hle

/-- Nor does it rise above one. -/
theorem Rounds.value_le (h : x.Rounds q) (hx : x.isFinite = true) (hy : y.Exactly p)
    (hqp : q ≤ p) : x.value ≤ p := by
  rcases hy.rounds_value with ⟨hfinite, hvalue⟩
  have hle := h.mono (rounds_round false p) hqp hx hfinite
  rwa [hvalue] at hle

/-- The sign that is given to zero does not matter for the value. -/
theorem Rounds.value_eq (h : x.Rounds q) : x.value = (round false q).value := by
  rcases h with ⟨zeroSign, rfl⟩
  by_cases hzero : q = 0
  · rw [hzero, round, round, if_pos rfl, if_pos rfl]
    exact (signedValue_zero zeroSign).trans (signedValue_zero false).symm
  · rw [round, round, if_neg hzero, if_neg hzero]

/-! ## Integer parts -/

/-- Rounding a number does not take it below its integer part, and not above
    the next integer. -/
theorem Rounds.floor_value (h : x.Rounds q) (hx : x.isFinite = true) (hq : |q| < (2 : Rat) ^ 52) :
    ⌊x.value⌋ = ⌊q⌋ ∨ ⌊x.value⌋ = ⌊q⌋ + 1 := by
  rcases abs_lt.mp hq with ⟨hlower, hupper⟩
  have hmin : -2 ^ 52 ≤ ⌊q⌋ := Int.le_floor.mpr (by push_cast; exact hlower.le)
  have hmax : ⌊q⌋ < 2 ^ 52 := Int.floor_lt.mpr (by push_cast; exact hupper)
  have hbelow := h.le_value hx (exactly_ofInt ⌊q⌋ (by rw [abs_le]; constructor <;> omega))
    (Int.floor_le q)
  have habove := h.value_le hx (exactly_ofInt (⌊q⌋ + 1) (by rw [abs_le]; constructor <;> omega))
    (by push_cast; exact (Int.lt_floor_add_one q).le)
  have hle : ⌊q⌋ ≤ ⌊x.value⌋ := Int.le_floor.mpr hbelow
  have hlt : ⌊x.value⌋ < ⌊q⌋ + 2 := by
    refine Int.floor_lt.mpr (habove.trans_lt ?_)
    push_cast
    linarith
  omega

/-- What is not negative is cut off at its integer part. -/
theorem truncate_of_nonneg (x : Binary64) (h : 0 ≤ x.value) : x.truncate = ⌊x.value⌋ :=
  if_neg (not_lt.mpr h)

/-- A double below a multiple of a million is a line of its grid below it, or
    further away. -/
theorem two_pow_le_million_sub (x : Binary64) (hx : 0 ≤ x.value) (n : Int) (k : Nat)
    (hk : k ≤ 33) (hn : (2 : Rat) ^ k ≤ n) (hlt : x.value < n * 1000000) :
    (2 : Rat) ^ k / 2 ^ 33 ≤ n * 1000000 - x.value := by
  have hpow : (0 : Rat) < (2 : Rat) ^ k := by positivity
  rcases lt_or_ge |x.value| ((2 : Rat) ^ (k + 19)) with hsmall | hlarge
  · rw [abs_of_nonneg hx, pow_add] at hsmall
    linarith
  · have hexp : ((k + 19 : Nat) : Int) - 52 = k - 33 := by
      push_cast
      ring
    have hinteger := grid_intCast (n * 1000000) (by omega : (k : Int) - 33 ≤ 0)
    have hgrid := x.grid_of_two_pow_le (k + 19) hlarge
    push_cast at hinteger
    rw [hexp] at hgrid
    have hapart := hgrid.two_zpow_le_sub hinteger hlt
    rw [zpow_sub₀ (by norm_num), zpow_natCast] at hapart
    exact hapart

/-- Dividing by a million and rounding leaves the integer part of the quotient
    alone, because rounding moves the quotient by less than a line of the grid
    of the dividend is worth. -/
theorem floor_div_million (hx : 0 ≤ x.value) (hsize : x.value ≤ (2 : Rat) ^ 40)
    (h : y.Rounds (x.value / 1000000)) :
    y.isFinite = true ∧ ⌊y.value⌋ = ⌊x.value / 1000000⌋ := by
  have hnonneg : 0 ≤ x.value / 1000000 := div_nonneg hx (by norm_num)
  have hquotient : x.value / 1000000 < (2 : Rat) ^ 21 := by
    rw [div_lt_iff₀ (by norm_num)]
    exact hsize.trans_lt (by norm_num)
  have hfinite := (h.near 21 (by norm_num) (by rw [abs_of_nonneg hnonneg]; exact hquotient.le)).1
  refine ⟨hfinite, (h.floor_value hfinite ?_).resolve_right fun hreached => ?_⟩
  · rw [abs_of_nonneg hnonneg]
    exact hquotient.trans (by norm_num)
  have hbelow := Int.lt_floor_add_one (x.value / 1000000)
  have habove := Int.floor_le y.value
  have hone := Int.floor_nonneg.mpr hnonneg
  have hnext : ⌊x.value / 1000000⌋ < 2 ^ 21 := Int.floor_lt.mpr (by push_cast; exact hquotient)
  rw [hreached] at habove
  rw [← Int.cast_one (R := Rat), ← Int.cast_add] at hbelow
  generalize hn : ⌊x.value / 1000000⌋ + 1 = n at *
  have hone' : (1 : Rat) ≤ n := by exact_mod_cast (by omega : 1 ≤ n)
  have hnext' : (n : Rat) ≤ (2 : Rat) ^ 21 := by exact_mod_cast (by omega : n ≤ 2 ^ 21)
  rcases exists_nat_pow_near hone' one_lt_two with ⟨k, hk, hk'⟩
  have hkle : k ≤ 21 := (pow_le_pow_iff_right₀ one_lt_two).mp (hk.trans hnext')
  have hapart := x.two_pow_le_million_sub hx n k (by omega) hk
    ((div_lt_iff₀ (by norm_num)).mp hbelow)
  -- The rounded quotient has reached the integer, which was too far away.
  have herror := (h.near (k + 1) (by omega)
    (by rw [abs_of_nonneg hnonneg]; exact hbelow.le.trans hk'.le)).2
  have hexp : ((k + 1 : Nat) : Int) - 54 = k - 53 := by
    push_cast
    ring
  rw [hexp, zpow_sub₀ (by norm_num), zpow_natCast, abs_le] at herror
  have hcancel : x.value / 1000000 * 1000000 = x.value := div_mul_cancel₀ _ (by norm_num)
  have hpow : (0 : Rat) < (2 : Rat) ^ k := by positivity
  norm_num at herror hapart
  linarith

end Binary64

end PicoTime
