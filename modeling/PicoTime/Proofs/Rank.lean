import PicoTime.Binary64.Rounding
import PicoTime.Proofs.Magnitude

/-!
# Ranks in Order

Ranks name the magnitudes of doubles in ascending order, one after another
without a gap. `rankValue_succ` is the whole of it: the next rank lies one
`spacing` higher, and the spacing is positive. From that follow the order of
all values, that `rankBelow` finds the only rank around a number, and what
rounding to the nearest rank needs to be trusted with: it keeps the order, it
leaves the values of ranks alone, and it lands past the finite ranks from
their end on.

Zero is not a positive number and `rankBelow` says nothing about it. Rounding
treats it apart.

## Main definitions

* `spacing`: The distance from a rank's value to the next.

## Theorems

* `rankValue_succ`: The next rank lies one spacing higher.
* `rankValue_strictMono`: Values are in the order of their ranks.
* `rankBelow_spec`: A number lies between its rank's value and the next.
* `rankBelow_eq`: No other rank has the number above it.
* `nearestRank_nearest`: Rounding goes to the nearest rank, and to an even one
  of two that are equally near.
* `nearestRank_rankValue`: The value of a rank is nearest to that rank.
* `nearestRank_mono`: Rounding keeps the order.
* `finiteCount_le_nearestRank`: From the end of the finite ranks on, rounding
  does not come back to them.
* `nearestRank_eq_zero`: Less than half the least value rounds to zero.
-/

namespace PicoTime

/-- The distance from the value at a rank to the value at the next. The first
    two binades share it. -/
def spacing (rank : Nat) : Rat :=
  (2 : Rat) ^ (((max (rank / binadeSize) 1 : Nat) : Int) - 1075)

theorem spacing_pos (rank : Nat) : 0 < spacing rank :=
  zpow_pos (by norm_num) _

theorem binadeSize_pos : 0 < binadeSize := by decide

theorem cast_binadeSize : (binadeSize : Rat) = (2 : Rat) ^ (52 : Int) := by
  unfold binadeSize
  norm_num

/-- A rank by its binade and its place there. -/
theorem binade_div_mod (binade place : Nat) (hplace : place < binadeSize) :
    (binade * binadeSize + place) / binadeSize = binade
      ∧ (binade * binadeSize + place) % binadeSize = place := by
  rw [Nat.mul_comm]
  constructor
  · rw [Nat.mul_add_div binadeSize_pos, Nat.div_eq_of_lt hplace, Nat.add_zero]
  · rw [Nat.mul_add_mod, Nat.mod_eq_of_lt hplace]

theorem rankValue_first (place : Nat) (hplace : place < binadeSize) :
    rankValue place = (place : Rat) * (2 : Rat) ^ (-1074 : Int) := by
  simp only [rankValue, Nat.div_eq_of_lt hplace, Nat.mod_eq_of_lt hplace, if_true]

theorem rankValue_later (binade place : Nat) (hplace : place < binadeSize) :
    rankValue ((binade + 1) * binadeSize + place)
      = ((binadeSize + place : Nat) : Rat) * (2 : Rat) ^ ((binade : Int) - 1074) := by
  rcases binade_div_mod (binade + 1) place hplace with ⟨hdiv, hmod⟩
  simp only [rankValue, hdiv, hmod, if_neg (Nat.succ_ne_zero binade)]
  congr 2
  omega

theorem spacing_first (place : Nat) (hplace : place < binadeSize) :
    spacing place = (2 : Rat) ^ (-1074 : Int) := by
  rw [spacing, Nat.div_eq_of_lt hplace]
  rfl

theorem spacing_later (binade place : Nat) (hplace : place < binadeSize) :
    spacing ((binade + 1) * binadeSize + place) = (2 : Rat) ^ ((binade : Int) - 1074) := by
  rw [spacing, (binade_div_mod (binade + 1) place hplace).1]
  congr 1
  omega

/-- The next rank lies one spacing higher. -/
theorem rankValue_succ (rank : Nat) : rankValue (rank + 1) = rankValue rank + spacing rank := by
  have hplace := Nat.mod_lt rank binadeSize_pos
  rw [← Nat.div_add_mod' rank binadeSize]
  generalize rank / binadeSize = binade
  generalize hq : rank % binadeSize = place at *
  have hlastPlace (hlast : place + 1 = binadeSize) : (place : Rat) = binadeSize - 1 := by
    rw [← hlast]
    push_cast
    ring
  rcases binade with _ | binade
  · rw [Nat.zero_mul, Nat.zero_add, rankValue_first place hplace, spacing_first place hplace]
    by_cases hlast : place + 1 = binadeSize
    · -- The next rank begins the second binade, which has the same spacing.
      have hnext : place + 1 = (0 + 1) * binadeSize + 0 := by omega
      rw [hnext, rankValue_later 0 0 binadeSize_pos, hlastPlace hlast, Nat.add_zero,
        show ((0 : Nat) : Int) - 1074 = -1074 by rfl, sub_one_mul, sub_add_cancel]
    · rw [rankValue_first (place + 1) (by omega), Nat.cast_succ, add_one_mul]
  · rw [rankValue_later binade place hplace, spacing_later binade place hplace]
    by_cases hlast : place + 1 = binadeSize
    · -- The next rank begins a binade, where the spacing is twice as wide.
      have hnext : (binade + 1) * binadeSize + place + 1 = (binade + 1 + 1) * binadeSize + 0 := by
        rw [Nat.succ_mul (binade + 1)]
        omega
      have hexp : ((binade + 1 : Nat) : Int) - 1074 = ((binade : Int) - 1074) + 1 := by omega
      rw [hnext, rankValue_later (binade + 1) 0 binadeSize_pos, hexp,
        zpow_add_one₀ (by norm_num)]
      push_cast
      rw [hlastPlace hlast]
      ring
    · rw [Nat.add_assoc, rankValue_later binade (place + 1) (by omega)]
      push_cast
      ring

/-- Values are in the order of their ranks. -/
theorem rankValue_strictMono : StrictMono rankValue := by
  refine strictMono_nat_of_lt_succ (fun rank => ?_)
  rw [rankValue_succ]
  exact lt_add_of_pos_right _ (spacing_pos rank)

theorem rankValue_zero : rankValue 0 = 0 := by
  rw [rankValue_first 0 binadeSize_pos, Nat.cast_zero, zero_mul]

theorem rankValue_pos (rank : Nat) (h : 0 < rank) : 0 < rankValue rank := by
  rw [← rankValue_zero]
  exact rankValue_strictMono h

/-- Less than two binades of spacings are the value of a rank, if they are a
    binade at least or of the narrowest spacing. -/
theorem rankValue_of_spacings (e : Int) (q : Nat) (he : -1074 ≤ e) (hq : q < 2 * binadeSize)
    (hfull : binadeSize ≤ q ∨ e = -1074) :
    rankValue ((e + 1074).toNat * binadeSize + q) = (q : Rat) * (2 : Rat) ^ e
      ∧ spacing ((e + 1074).toNat * binadeSize + q) = (2 : Rat) ^ e := by
  by_cases hlarge : binadeSize ≤ q
  · -- The first binade of spacings is the binades before.
    have hsplit : (e + 1074).toNat * binadeSize + q
        = ((e + 1074).toNat + 1) * binadeSize + (q - binadeSize) := by
      rw [Nat.succ_mul]
      omega
    have hexp : ((e + 1074).toNat : Int) - 1074 = e := by omega
    rw [hsplit, rankValue_later _ _ (by omega), spacing_later _ _ (by omega), hexp,
      Nat.add_sub_cancel' hlarge]
    exact ⟨rfl, rfl⟩
  · have hsmall : q < binadeSize := not_le.mp hlarge
    rw [hfull.resolve_left hlarge, show ((-1074 : Int) + 1074).toNat = 0 by decide,
      Nat.zero_mul, Nat.zero_add]
    exact ⟨rankValue_first q hsmall, spacing_first q hsmall⟩

/-- A positive number lies between the value of its rank and the next. -/
theorem rankBelow_spec (x : Rat) (hx : 0 < x) :
    rankValue (rankBelow x) ≤ x ∧ x < rankValue (rankBelow x + 1) := by
  rcases floorLog2_spec x hx with ⟨hle, hlt⟩
  have htwo : (2 : Rat) ≠ 0 := by norm_num
  set e : Int := max (-1074) (floorLog2 x - 52)
  have hpow : (0 : Rat) < (2 : Rat) ^ e := zpow_pos (by norm_num) _
  -- The whole number of spacings in `x`.
  set q : Nat := (x / (2 : Rat) ^ e).floor.toNat
  have hfloor : ⌊x / (2 : Rat) ^ e⌋ = (q : Int) :=
    (Int.toNat_of_nonneg (Int.floor_nonneg.mpr (div_nonneg hx.le hpow.le))).symm
  have hqle : (q : Rat) * (2 : Rat) ^ e ≤ x := by
    rw [← le_div_iff₀ hpow]
    exact_mod_cast hfloor ▸ Int.floor_le (x / (2 : Rat) ^ e)
  have hqlt : x < ((q : Rat) + 1) * (2 : Rat) ^ e := by
    rw [← div_lt_iff₀ hpow]
    exact_mod_cast hfloor ▸ Int.lt_floor_add_one (x / (2 : Rat) ^ e)
  have hq : q < 2 * binadeSize := by
    have h : (q : Rat) * (2 : Rat) ^ e < ((2 * binadeSize : Nat) : Rat) * (2 : Rat) ^ e := by
      refine hqle.trans_lt (hlt.trans_le ?_)
      push_cast
      rw [cast_binadeSize, ← zpow_one_add₀ htwo, ← zpow_add₀ htwo]
      exact zpow_le_zpow_right₀ (by norm_num) (by omega)
    exact_mod_cast lt_of_mul_lt_mul_right h hpow.le
  have hfull : binadeSize ≤ q ∨ e = -1074 := by
    by_cases hee : e = -1074
    · exact Or.inr hee
    · have h : (binadeSize : Rat) * (2 : Rat) ^ e < ((q + 1 : Nat) : Rat) * (2 : Rat) ^ e := by
        push_cast
        refine lt_of_le_of_lt (le_trans (le_of_eq ?_) hle) hqlt
        rw [cast_binadeSize, ← zpow_add₀ htwo]
        congr 1
        omega
      have hlt' : binadeSize < q + 1 := by exact_mod_cast lt_of_mul_lt_mul_right h hpow.le
      exact Or.inl (by omega)
  have hrank : rankBelow x = (e + 1074).toNat * binadeSize + q := rfl
  rcases rankValue_of_spacings e q (by omega) hq hfull with ⟨hvalue, hspacing⟩
  rw [rankValue_succ, hrank, hvalue, hspacing]
  exact ⟨hqle, by rw [← add_one_mul]; exact hqlt⟩

/-- No other rank has its value below the number and the next above it. -/
theorem rankBelow_eq (x : Rat) (rank : Nat) (hx : 0 < x) (hle : rankValue rank ≤ x)
    (hlt : x < rankValue (rank + 1)) : rankBelow x = rank := by
  rcases rankBelow_spec x hx with ⟨hle', hlt'⟩
  have h1 := rankValue_strictMono.lt_iff_lt.mp (hle.trans_lt hlt')
  have h2 := rankValue_strictMono.lt_iff_lt.mp (hle'.trans_lt hlt)
  omega

/-- The rank below a greater number is no lower. -/
theorem rankBelow_mono (x y : Rat) (hx : 0 < x) (hxy : x ≤ y) : rankBelow x ≤ rankBelow y := by
  have hle := (rankBelow_spec x hx).1
  have hlt := (rankBelow_spec y (hx.trans_le hxy)).2
  have h := rankValue_strictMono.lt_iff_lt.mp ((hle.trans hxy).trans_lt hlt)
  omega

/-- Rounding goes to the rank below or to the next. -/
theorem nearestRank_mem (x : Rat) :
    nearestRank x = rankBelow x ∨ nearestRank x = rankBelow x + 1 := by
  simp only [nearestRank]
  split_ifs
  · exact Or.inl rfl
  · exact Or.inr rfl
  · exact Or.inl rfl
  · exact Or.inr rfl

/-- Rounding down is for numbers that are no nearer to the rank above. -/
theorem nearestRank_lower (x : Rat) (h : nearestRank x = rankBelow x) :
    x - rankValue (rankBelow x) ≤ rankValue (rankBelow x + 1) - x := by
  simp only [nearestRank] at h
  split_ifs at h with hlow hhigh heven
  · exact hlow.le
  · omega
  · exact not_lt.mp hhigh
  · omega

/-- Rounding up is for numbers that are no nearer to the rank below. -/
theorem nearestRank_upper (x : Rat) (h : nearestRank x = rankBelow x + 1) :
    rankValue (rankBelow x + 1) - x ≤ x - rankValue (rankBelow x) := by
  simp only [nearestRank] at h
  split_ifs at h with hlow hhigh heven
  · omega
  · exact hhigh.le
  · omega
  · exact not_lt.mp hlow

/-- A number halfway between two ranks goes to the even one. -/
theorem nearestRank_even (x : Rat)
    (h : x - rankValue (rankBelow x) = rankValue (rankBelow x + 1) - x) :
    nearestRank x % 2 = 0 := by
  simp only [nearestRank, h, lt_self_iff_false, if_false]
  split_ifs with heven
  · exact heven
  · omega

/-- No rank is nearer to a number than the one it rounds to, and among ranks
    that are equally near that one is even. -/
theorem nearestRank_nearest (x : Rat) (hx : 0 < x) (rank : Nat) :
    |x - rankValue (nearestRank x)| ≤ |x - rankValue rank|
      ∧ (|x - rankValue (nearestRank x)| = |x - rankValue rank| → rank ≠ nearestRank x →
        nearestRank x % 2 = 0) := by
  rcases rankBelow_spec x hx with ⟨hle, hlt⟩
  have hdown : |x - rankValue (rankBelow x)| = x - rankValue (rankBelow x) :=
    abs_of_nonneg (sub_nonneg.mpr hle)
  have hup : |x - rankValue (rankBelow x + 1)| = rankValue (rankBelow x + 1) - x := by
    rw [abs_sub_comm]
    exact abs_of_nonneg (sub_nonneg.mpr hlt.le)
  by_cases hrank : rank ≤ rankBelow x
  · -- The rank below is the nearest on this side.
    have hfar : x - rankValue (rankBelow x) ≤ |x - rankValue rank| :=
      (sub_le_sub_left (rankValue_strictMono.monotone hrank) x).trans (le_abs_self _)
    rcases nearestRank_mem x with h | h
    · rw [h, hdown]
      refine ⟨hfar, fun htie hne => absurd htie ?_⟩
      have hvalue := rankValue_strictMono (lt_of_le_of_ne hrank hne)
      exact ((sub_lt_sub_left hvalue x).trans_le (le_abs_self _)).ne
    · have hupper := nearestRank_upper x h
      have heven := nearestRank_even x
      rw [h] at heven
      rw [h, hup]
      exact ⟨hupper.trans hfar, fun htie _ => heven (le_antisymm (hfar.trans htie.ge) hupper)⟩
  · -- The rank above is.
    have hrank : rankBelow x + 1 ≤ rank := by omega
    have hfar : rankValue (rankBelow x + 1) - x ≤ |x - rankValue rank| := by
      rw [abs_sub_comm]
      exact (sub_le_sub_right (rankValue_strictMono.monotone hrank) x).trans (le_abs_self _)
    rcases nearestRank_mem x with h | h
    · have hlower := nearestRank_lower x h
      have heven := nearestRank_even x
      rw [h] at heven
      rw [h, hdown]
      exact ⟨hlower.trans hfar, fun htie _ => heven (le_antisymm hlower (hfar.trans htie.ge))⟩
    · rw [h, hup]
      refine ⟨hfar, fun htie hne => absurd htie ?_⟩
      have hvalue := rankValue_strictMono (lt_of_le_of_ne hrank hne.symm)
      rw [abs_sub_comm x]
      exact ((sub_lt_sub_right hvalue x).trans_le (le_abs_self _)).ne

/-- The value of a rank is nearest to that rank. -/
theorem nearestRank_rankValue (rank : Nat) (h : 0 < rank) :
    nearestRank (rankValue rank) = rank := by
  have hlt : rankValue rank < rankValue (rank + 1) := rankValue_strictMono (Nat.lt_succ_self rank)
  have hbelow := rankBelow_eq (rankValue rank) rank (rankValue_pos rank h) le_rfl hlt
  simp only [nearestRank, hbelow]
  rw [if_pos (by rw [sub_self]; exact sub_pos.mpr hlt)]

/-- Rounding keeps the order. -/
theorem nearestRank_mono (x y : Rat) (hx : 0 < x) (hxy : x ≤ y) :
    nearestRank x ≤ nearestRank y := by
  rcases (rankBelow_mono x y hx hxy).lt_or_eq with hlt | heq
  · have h1 := nearestRank_mem x
    have h2 := nearestRank_mem y
    omega
  · -- Between the same two ranks, the greater number is nearer to the upper.
    rcases nearestRank_mem x with hlow | hhigh
    · have h := nearestRank_mem y
      omega
    rcases nearestRank_mem y with hlow | hhigh'
    · have hupper := nearestRank_upper x hhigh
      have hlower := nearestRank_lower y hlow
      rw [heq] at hupper
      rw [le_antisymm hxy (by linarith)]
    · omega

/-- From the value past the finite ranks on, rounding does not come back. -/
theorem finiteCount_le_nearestRank (x : Rat) (hx : rankValue finiteCount ≤ x) :
    finiteCount ≤ nearestRank x := by
  have hpos : 0 < finiteCount := by decide
  rw [← nearestRank_rankValue finiteCount hpos]
  exact nearestRank_mono _ x (rankValue_pos finiteCount hpos) hx

theorem rankValue_finiteCount : rankValue finiteCount = (2 : Rat) ^ (1024 : Int) := by
  have hsplit : finiteCount = (2046 + 1) * binadeSize + 0 := by decide
  rw [hsplit, rankValue_later 2046 0 binadeSize_pos, Nat.add_zero, cast_binadeSize,
    ← zpow_add₀ (by norm_num)]
  rfl

/-- Less than half the least positive value rounds to zero. -/
theorem nearestRank_eq_zero (x : Rat) (hx : 0 < x) (hlt : x < (2 : Rat) ^ (-1075 : Int)) :
    nearestRank x = 0 := by
  have hone : rankValue (0 + 1) = (2 : Rat) ^ (-1074 : Int) := by
    rw [rankValue_succ, rankValue_zero, zero_add, spacing_first 0 binadeSize_pos]
  have hhalf : (2 : Rat) ^ (-1074 : Int) = 2 * (2 : Rat) ^ (-1075 : Int) := by
    rw [← zpow_one_add₀ (by norm_num)]
    rfl
  have hbelow : rankBelow x = 0 := by
    refine rankBelow_eq x 0 hx (by rw [rankValue_zero]; exact hx.le) ?_
    rw [hone, hhalf]
    linarith
  simp only [nearestRank, hbelow]
  rw [if_pos]
  rw [hone, rankValue_zero, hhalf]
  linarith

end PicoTime
