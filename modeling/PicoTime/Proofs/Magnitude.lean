import Mathlib
import PicoTime.Magnitude

/-!
# Orders of Magnitude Are Exact

The integer logarithm of a positive rational lies between the powers it
should. One lemma does it for any base, from the logarithms of the numerator
and the denominator: their powers enclose the quotient within a factor of the
base to either side, and the comparison decides between the two candidates
that are left.

## Main definitions

* `IsLog`: A logarithm of the positive natural numbers.

## Theorems

* `floorLogBy_spec`: The order of magnitude, in any base.
* `floorLog2_spec`: The binary order of magnitude.
* `isLog_decimalLog`: The number of decimal digits gives the logarithm.
* `floorLog10_spec`: The decimal order of magnitude.
-/

namespace PicoTime

/-- The function is the integer logarithm of the positive natural numbers. -/
def IsLog (base : Nat) (log : Nat → Nat) : Prop :=
  ∀ n, 0 < n → base ^ log n ≤ n ∧ n < base ^ (log n + 1)

/-- The powers of the base at an order of magnitude enclose the number. -/
theorem floorLogBy_spec (base : Nat) (log : Nat → Nat) (hbase : 1 < base)
    (hlog : IsLog base log) (x : Rat) (hx : 0 < x) :
    (base : Rat) ^ floorLogBy base log x ≤ x
      ∧ x < (base : Rat) ^ (floorLogBy base log x + 1) := by
  have hb : (0 : Rat) < base := by exact_mod_cast Nat.lt_trans Nat.zero_lt_one hbase
  have hnum : 0 < x.num := Rat.num_pos.mpr hx
  have hcast : ((x.num.toNat : Nat) : Rat) = x.num := by
    exact_mod_cast Int.toNat_of_nonneg hnum.le
  have hden : (0 : Rat) < x.den := by exact_mod_cast x.den_pos
  have hx' : x * x.den = x.num := Rat.mul_den_eq_num x
  rcases hlog x.num.toNat (by omega) with ⟨hnle, hnlt⟩
  rcases hlog x.den x.den_pos with ⟨hdle, hdlt⟩
  set p := log x.num.toNat
  set q := log x.den
  have hnle' : (base : Rat) ^ (p : Int) ≤ x.num := by
    rw [← hcast, zpow_natCast]
    exact_mod_cast hnle
  have hnlt' : (x.num : Rat) < (base : Rat) ^ ((p : Int) + 1) := by
    rw [← hcast]
    exact_mod_cast hnlt
  have hdle' : (base : Rat) ^ (q : Int) ≤ x.den := by
    rw [zpow_natCast]
    exact_mod_cast hdle
  have hdlt' : (x.den : Rat) < (base : Rat) ^ ((q : Int) + 1) := by exact_mod_cast hdlt
  -- The quotient is within a factor of the base of the estimate.
  have hlow : (base : Rat) ^ ((p : Int) - q - 1) ≤ x := by
    refine le_of_mul_le_mul_right ?_ hden
    calc (base : Rat) ^ ((p : Int) - q - 1) * x.den
        ≤ (base : Rat) ^ ((p : Int) - q - 1) * (base : Rat) ^ ((q : Int) + 1) := by gcongr
      _ = (base : Rat) ^ (p : Int) := by
          rw [← zpow_add₀ hb.ne']
          congr 1
          omega
      _ ≤ x * x.den := by rw [hx']; exact hnle'
  have hhigh : x < (base : Rat) ^ ((p : Int) - q + 1) := by
    refine lt_of_mul_lt_mul_right ?_ hden.le
    calc x * x.den
        < (base : Rat) ^ ((p : Int) + 1) := by rw [hx']; exact hnlt'
      _ = (base : Rat) ^ ((p : Int) - q + 1) * (base : Rat) ^ (q : Int) := by
          rw [← zpow_add₀ hb.ne']
          congr 1
          omega
      _ ≤ (base : Rat) ^ ((p : Int) - q + 1) * x.den := by gcongr
  have hdef : floorLogBy base log x
      = if (base : Rat) ^ ((p : Int) - q) ≤ x then (p : Int) - q else (p : Int) - q - 1 := rfl
  rw [hdef]
  split_ifs with h
  · exact ⟨h, hhigh⟩
  · rw [sub_add_cancel]
    exact ⟨hlow, not_le.mp h⟩

theorem isLog_log2 : IsLog 2 Nat.log2 := by
  intro n hn
  exact ⟨Nat.log2_self_le hn.ne', Nat.lt_log2_self⟩

/-- A power of two and the next enclose a positive number. -/
theorem floorLog2_spec (x : Rat) (hx : 0 < x) :
    (2 : Rat) ^ floorLog2 x ≤ x ∧ x < (2 : Rat) ^ (floorLog2 x + 1) :=
  floorLogBy_spec 2 Nat.log2 (by omega) isLog_log2 x hx

theorem isLog_decimalLog : IsLog 10 decimalLog := by
  intro n hn
  unfold decimalLog
  have hpos : 0 < (Nat.toDigits 10 n).length := Nat.length_toDigits_pos
  have hle := (Nat.length_toDigits_le_iff (n := n) (by omega : 1 < 10) hpos).mp le_rfl
  rw [Nat.sub_add_cancel hpos]
  refine ⟨?_, hle⟩
  by_cases hone : (Nat.toDigits 10 n).length - 1 = 0
  · rw [hone]
    omega
  · -- With a digit less, all numbers are below the power.
    have hless := Nat.length_toDigits_le_iff (n := n) (by omega : 1 < 10)
      (Nat.pos_of_ne_zero hone)
    omega

/-- A power of ten and the next enclose a positive number. -/
theorem floorLog10_spec (x : Rat) (hx : 0 < x) :
    (10 : Rat) ^ floorLog10 x ≤ x ∧ x < (10 : Rat) ^ (floorLog10 x + 1) :=
  floorLogBy_spec 10 decimalLog (by omega) isLog_decimalLog x hx

end PicoTime
