import PicoTime.Decimal
import PicoTime.Proofs.Rank

/-!
# The Shortest Decimal Reads Back

Reading a decimal is rounding the number it denotes. The definition takes two
short cuts, for numbers so large or so small that the digits do not matter,
and `ofDecimal_eq_ofRank` says that they are no more than short cuts. So what
a decimal reads as depends on its sign and on the number it denotes, and not
on how the digits and the exponent share it.

The search for the shortest decimal tests every candidate by rounding it, and
so what it finds reads back by construction. The number in full, which stands
behind the search, is exact: a double is a whole number of units of the
1074th binary place, and so of the 1074th decimal place.

## Theorems

* `Binary64.ofDecimal_eq_ofRank`: Reading rounds the number denoted.
* `Binary64.ofDecimal_congr`: Equal numbers read alike.
* `Decimal.onGrid?_spec`: What is found on a grid reads back.
* `Decimal.magnitude_inFull`: The number in full is exact.
* `Decimal.ofDecimal_shortest`: The shortest decimal reads back.
-/

namespace PicoTime

/-- Three binary places are fewer than one decimal place. -/
theorem two_zpow_le_ten_zpow (n : Int) (hn : 0 ≤ n) : (2 : Rat) ^ (3 * n) ≤ (10 : Rat) ^ n := by
  rw [zpow_mul]
  exact zpow_le_zpow_left₀ hn (by norm_num) (by norm_num)

namespace Binary64

/-- Reading a decimal rounds the number it denotes, also where the definition
    does not look at the digits. -/
theorem ofDecimal_eq_ofRank (d : Decimal) (h : d.digits ≠ 0) :
    ofDecimal d = ofRank d.negative (nearestRank d.magnitude) := by
  have hpos : 0 < d.digits := Nat.pos_of_ne_zero h
  have hdigits : (1 : Rat) ≤ d.digits := by exact_mod_cast hpos
  have hpow : (0 : Rat) < (10 : Rat) ^ d.exponent := zpow_pos (by norm_num) _
  unfold ofDecimal
  rw [if_neg h]
  by_cases hlarge : 400 < d.exponent
  · -- Even one unit is past the finite ranks.
    rw [if_pos hlarge]
    have hmag : rankValue finiteCount ≤ d.magnitude := by
      rw [rankValue_finiteCount, Decimal.magnitude]
      calc (2 : Rat) ^ (1024 : Int)
          ≤ (2 : Rat) ^ (3 * 400 : Int) := zpow_le_zpow_right₀ (by norm_num) (by omega)
        _ ≤ (10 : Rat) ^ (400 : Int) := two_zpow_le_ten_zpow 400 (by omega)
        _ ≤ (10 : Rat) ^ d.exponent := zpow_le_zpow_right₀ (by norm_num) hlarge.le
        _ ≤ d.digits * (10 : Rat) ^ d.exponent := le_mul_of_one_le_left hpow.le hdigits
    rw [ofRank, dif_neg (not_lt.mpr (finiteCount_le_nearestRank _ hmag))]
  · rw [if_neg hlarge]
    by_cases hsmall : d.exponent + (d.digits.log2 : Int) < -1400
    · -- All the units together are less than half the least positive value.
      rw [if_pos hsmall]
      have hmag : d.magnitude < (2 : Rat) ^ (-1075 : Int) := by
        rw [Decimal.magnitude]
        have hlog : (d.digits : Rat) < (2 : Rat) ^ ((d.digits.log2 : Int) + 1) := by
          exact_mod_cast (Nat.lt_log2_self (n := d.digits))
        have hten : (2 : Rat) ^ (d.digits.log2 : Int) ≤ (10 : Rat) ^ (d.digits.log2 : Int) :=
          zpow_le_zpow_left₀ (by omega) (by norm_num) (by norm_num)
        calc (d.digits : Rat) * (10 : Rat) ^ d.exponent
            ≤ (2 * (10 : Rat) ^ (d.digits.log2 : Int)) * (10 : Rat) ^ d.exponent := by
              refine mul_le_mul_of_nonneg_right (hlog.le.trans ?_) hpow.le
              rw [zpow_add_one₀ (by norm_num), mul_comm]
              linarith
          _ = 2 * (10 : Rat) ^ (d.exponent + (d.digits.log2 : Int)) := by
              rw [mul_assoc, ← zpow_add₀ (by norm_num), add_comm]
          _ ≤ 2 * (10 : Rat) ^ (-1400 : Int) := by
              have h := zpow_le_zpow_right₀ (by norm_num : (1 : Rat) ≤ 10) hsmall.le
              linarith
          _ ≤ 2 * (2 : Rat) ^ (-4200 : Int) := by
              rw [show (-1400 : Int) = -(1400 : Int) by rfl,
                show (-4200 : Int) = -(3 * 1400 : Int) by rfl, zpow_neg, zpow_neg]
              have h := inv_anti₀ (zpow_pos (by norm_num) _)
                (two_zpow_le_ten_zpow 1400 (by omega))
              linarith
          _ = (2 : Rat) ^ (-4199 : Int) := by
              rw [show (-4199 : Int) = 1 + -4200 by rfl, zpow_one_add₀ (by norm_num)]
          _ < (2 : Rat) ^ (-1075 : Int) := zpow_lt_zpow_right₀ (by norm_num) (by omega)
      have hposmag : 0 < d.magnitude := mul_pos (by linarith) hpow
      rw [nearestRank_eq_zero _ hposmag hmag, ofRank, dif_pos (by decide)]
      rfl
    · rw [if_neg hsmall]

/-- Decimals that denote the same number read alike. -/
theorem ofDecimal_congr (d e : Decimal) (hsign : d.negative = e.negative)
    (hmag : d.magnitude = e.magnitude) : ofDecimal d = ofDecimal e := by
  have hzero (c : Decimal) : c.digits = 0 ↔ c.magnitude = 0 := by
    have hpow : (10 : Rat) ^ c.exponent ≠ 0 := zpow_ne_zero _ (by norm_num)
    rw [Decimal.magnitude, mul_eq_zero, or_iff_left hpow, Nat.cast_eq_zero]
  by_cases h : d.digits = 0
  · have he : e.digits = 0 := (hzero e).mpr (hmag ▸ (hzero d).mp h)
    rw [ofDecimal, ofDecimal, if_pos h, if_pos he, hsign]
  · have he : e.digits ≠ 0 := fun hc => h ((hzero d).mpr (hmag ▸ (hzero e).mp hc))
    rw [ofDecimal_eq_ofRank d h, ofDecimal_eq_ofRank e he, hsign, hmag]

end Binary64

namespace Decimal

/-- What is found on a grid of whole units is not zero, and reads back. -/
theorem onGrid?_spec (rank : Nat) (place : Int) (m : Nat)
    (hunit : (10 : Rat) ^ place ≤ rankValue rank) (h : onGrid? rank place = some m) :
    0 < m ∧ nearestRank (m * (10 : Rat) ^ place) = rank := by
  have hpow : (0 : Rat) < (10 : Rat) ^ place := zpow_pos (by norm_num) _
  -- At least one unit lies below the number.
  have hcast : ((1 : Int) : Rat) ≤ rankValue rank / (10 : Rat) ^ place := by
    rw [Int.cast_one, le_div_iff₀ hpow, one_mul]
    exact hunit
  have hone : 1 ≤ (rankValue rank / (10 : Rat) ^ place).floor := Int.le_floor.mpr hcast
  have hpos : 0 < (rankValue rank / (10 : Rat) ^ place).floor.toNat := by omega
  simp only [onGrid?] at h
  generalize (rankValue rank / (10 : Rat) ^ place).floor.toNat = below at h hpos
  split at h
  · next hdown hup =>
    rw [decide_eq_true_eq] at hdown hup
    split_ifs at h <;> rw [Option.some.injEq] at h <;> subst h
    · exact ⟨hpos, hdown⟩
    · exact ⟨Nat.succ_pos below, hup⟩
    · exact ⟨hpos, hdown⟩
    · exact ⟨Nat.succ_pos below, hup⟩
  · next hdown _ =>
    rw [Option.some.injEq] at h
    subst h
    exact ⟨hpos, of_decide_eq_true hdown⟩
  · next _ hup =>
    rw [Option.some.injEq] at h
    subst h
    exact ⟨Nat.succ_pos below, of_decide_eq_true hup⟩
  · simp only [reduceCtorEq] at h

/-- Every rank's value is a whole number of units of the last place that is
    written in full. -/
theorem exists_natCast_eq_rankValue (rank : Nat) :
    ∃ n : Nat, (n : Rat) = rankValue rank * (10 : Rat) ^ (1074 : Int) := by
  have hten : (10 : Rat) ^ (1074 : Int) = (2 : Rat) ^ (1074 : Int) * (5 : Rat) ^ (1074 : Int) := by
    rw [← mul_zpow, show (2 : Rat) * 5 = 10 by norm_num]
  have hfive : (5 : Rat) ^ (1074 : Int) = ((5 ^ 1074 : Nat) : Rat) := by
    rw [Nat.cast_pow, Nat.cast_ofNat]
    exact zpow_natCast 5 1074
  have hplace := Nat.mod_lt rank binadeSize_pos
  rw [← Nat.div_add_mod' rank binadeSize, hten, hfive]
  generalize rank % binadeSize = place at hplace
  rcases rank / binadeSize with _ | binade
  · refine ⟨place * 5 ^ 1074, ?_⟩
    rw [Nat.zero_mul, Nat.zero_add, rankValue_first place hplace, ← mul_assoc,
      mul_assoc (place : Rat), ← zpow_add₀ (by norm_num : (2 : Rat) ≠ 0), Nat.cast_mul]
    rw [show (-1074 : Int) + 1074 = 0 by rfl, zpow_zero, mul_one]
  · refine ⟨(binadeSize + place) * 2 ^ binade * 5 ^ 1074, ?_⟩
    rw [rankValue_later binade place hplace, ← mul_assoc, mul_assoc ((_ : Nat) : Rat),
      ← zpow_add₀ (by norm_num : (2 : Rat) ≠ 0), sub_add_cancel, zpow_natCast, Nat.cast_mul,
      Nat.cast_mul, Nat.cast_pow, Nat.cast_ofNat]

/-- The number written in full is the number itself. -/
theorem magnitude_inFull (negative : Bool) (rank : Nat) :
    (inFull negative rank).magnitude = rankValue rank := by
  rcases exists_natCast_eq_rankValue rank with ⟨n, hn⟩
  have hfloor : (rankValue rank * (10 : Rat) ^ (1074 : Int)).floor.toNat = n := by
    rw [← hn]
    exact Int.floor_toNat (n : Rat) |>.trans (Nat.floor_natCast n)
  rw [magnitude, inFull, hfloor]
  change (n : Rat) * (10 : Rat) ^ (-1074 : Int) = _
  rw [hn, mul_assoc, ← zpow_add₀ (by norm_num)]
  exact mul_one _

/-- The search tests grids no wider than the number. -/
theorem found_reads (rank : Nat) (h : 0 < rank) (negative : Bool) (d : Decimal)
    (hfound : ((List.range 17).findSome? fun (more : Nat) =>
      (onGrid? rank (floorLog10 (rankValue rank) - more)).map fun m =>
        Decimal.mk negative m (floorLog10 (rankValue rank) - more)) = some d) :
    d.negative = negative ∧ d.digits ≠ 0 ∧ nearestRank d.magnitude = rank := by
  rcases List.exists_of_findSome?_eq_some hfound with ⟨more, _, hmore⟩
  rcases Option.map_eq_some_iff.mp hmore with ⟨m, hm, rfl⟩
  have hunit : (10 : Rat) ^ (floorLog10 (rankValue rank) - (more : Int)) ≤ rankValue rank :=
    (zpow_le_zpow_right₀ (by norm_num) (by omega)).trans
      (floorLog10_spec _ (rankValue_pos rank h)).1
  rcases onGrid?_spec rank _ m hunit hm with ⟨hpos, hreads⟩
  exact ⟨rfl, hpos.ne', hreads⟩

/-- The shortest decimal of a double reads back. -/
theorem ofDecimal_shortest (negative : Bool) (rank : Fin finiteCount) :
    Binary64.ofDecimal (shortest negative rank) = .finite negative rank := by
  have hfinite : Binary64.ofRank negative rank = .finite negative rank := by
    rw [Binary64.ofRank, dif_pos rank.isLt]
  unfold shortest
  by_cases hzero : (rank : Nat) = 0
  · rw [if_pos hzero, Binary64.ofDecimal, if_pos rfl, Binary64.zero]
    congr 1
    exact Fin.ext hzero.symm
  · rw [if_neg hzero]
    have hpos : 0 < (rank : Nat) := Nat.pos_of_ne_zero hzero
    simp only []
    rcases hfound : ((List.range 17).findSome? fun (more : Nat) =>
      (onGrid? rank (floorLog10 (rankValue rank) - more)).map fun m =>
        Decimal.mk negative m (floorLog10 (rankValue rank) - more)) with _ | d
    · -- No grid has a hit, and the number stands there in full.
      have hmag := magnitude_inFull negative rank
      have hdigits : (inFull negative rank).digits ≠ 0 := by
        intro hc
        rw [magnitude, hc, Nat.cast_zero, zero_mul] at hmag
        exact (rankValue_pos rank hpos).ne hmag
      rw [Option.getD_none, Binary64.ofDecimal_eq_ofRank _ hdigits, hmag,
        nearestRank_rankValue rank hpos]
      exact hfinite
    · rcases found_reads rank hpos negative d hfound with ⟨hsign, hdigits, hreads⟩
      rw [Option.getD_some, Binary64.ofDecimal_eq_ofRank d hdigits, hsign, hreads]
      exact hfinite

end Decimal

end PicoTime
