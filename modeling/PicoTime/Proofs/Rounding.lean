import PicoTime.Binary64.Arithmetic
import PicoTime.Proofs.Rank

/-!
# Where Rounding Ends

Every operation rounds an exact result, so whether it is finite is a question
about that result alone. There are two answers to it here. The sharp one says
from which number on rounding reaches a rank: for an even rank it is the
number halfway from the rank before, so a double becomes infinite halfway
between the greatest finite one and `2 ^ 1024`. The coarse one says that a
result bounded by a finite double stays bounded by it, which is all that a
chain of operations needs to be followed through.

Differences need one thing more, since two numbers within a bound may differ by
twice as much. They do not if they lie on the same side of zero, and rounding
never changes the side.

## Main definitions

* `SameSide`: Two numbers with zero not between them.
* `Binary64.AtMost`: A finite double within a bound.

## Theorems

* `succ_le_nearestRank_iff`: From where on rounding reaches an even rank.
* `two_pow_le_nearestRank_iff`: From where on it reaches a power of two.
* `rankValue_add_binades`: Further binades double the value.
* `Binary64.atMost_round`: Rounding stays within the value of a rank.
* `Binary64.sameSide_round`: Rounding does not cross zero.
* `Binary64.value_round`: Rounding leaves a double alone.
* `Binary64.isFinite_round_iff`: Which numbers round to a finite double.
* `Binary64.ofInt?_eq_none_iff`: Which integers are beyond all doubles.
-/

namespace PicoTime

theorem rankValue_nonneg (rank : Nat) : 0 ≤ rankValue rank := by
  rw [← rankValue_zero]
  exact rankValue_strictMono.monotone (Nat.zero_le rank)

/-- Rounding reaches an even rank from halfway between the rank before and
    that rank on. -/
theorem succ_le_nearestRank_iff (rank : Nat) (hodd : rank % 2 = 1) (x : Rat) (hx : 0 < x) :
    rank + 1 ≤ nearestRank x ↔ rankValue rank + rankValue (rank + 1) ≤ 2 * x := by
  rcases rankBelow_spec x hx with ⟨hle, hlt⟩
  have hstep : rankValue rank < rankValue (rank + 1) := rankValue_strictMono (Nat.lt_succ_self rank)
  rcases lt_trichotomy (rankBelow x) rank with hbelow | hbelow | hbelow
  · -- Even the rank above the number is not past the one before.
    have hvalue := rankValue_strictMono.monotone (show rankBelow x + 1 ≤ rank by omega)
    have hmem := nearestRank_mem x
    exact iff_of_false (by omega) (by linarith)
  · rcases nearestRank_mem x with hdown | hup
    · have hlower := nearestRank_lower x hdown
      have heven := nearestRank_even x
      rw [hbelow] at hlower heven hdown
      refine iff_of_false (by omega) (fun hhalf => ?_)
      -- Halfway between the two, rounding would have gone to the even one.
      have htie := heven (by linarith)
      omega
    · have hupper := nearestRank_upper x hup
      rw [hbelow] at hupper hup
      exact iff_of_true (by omega) (by linarith)
  · have hvalue := rankValue_strictMono.monotone (show rank + 1 ≤ rankBelow x by omega)
    have hmem := nearestRank_mem x
    exact iff_of_true (by omega) (by linarith)

/-- Further binades double the value, from the second on. -/
theorem rankValue_add_binades (rank count : Nat) (h : binadeSize ≤ rank) :
    rankValue (rank + count * binadeSize) = rankValue rank * (2 : Rat) ^ count := by
  have hplace := Nat.mod_lt rank binadeSize_pos
  have hbinade : 1 ≤ rank / binadeSize := (Nat.one_le_div_iff binadeSize_pos).mpr h
  rw [← Nat.div_add_mod' rank binadeSize]
  generalize rank % binadeSize = place at hplace
  rcases hb : rank / binadeSize with _ | binade
  · omega
  have hsplit : (binade + 1) * binadeSize + place + count * binadeSize
      = (binade + count + 1) * binadeSize + place := by ring
  have hexp : ((binade + count : Nat) : Int) - 1074 = ((binade : Int) - 1074) + count := by
    push_cast
    ring
  rw [hsplit, rankValue_later _ place hplace, rankValue_later binade place hplace, hexp,
    zpow_add₀ (by norm_num), zpow_natCast, mul_assoc]

/-- Each binade from the thousand and twenty-third on begins with a power of
    two that is an integer. -/
theorem rankValue_two_pow (k : Nat) : rankValue ((k + 1023) * binadeSize) = (2 : Rat) ^ k := by
  have hsplit : (k + 1023) * binadeSize = (k + 1022 + 1) * binadeSize + 0 := by ring
  have hexp : (52 : Int) + (((k + 1022 : Nat) : Int) - 1074) = (k : Int) := by
    push_cast
    ring
  rw [hsplit, rankValue_later _ 0 binadeSize_pos, Nat.add_zero, cast_binadeSize,
    ← zpow_add₀ (by norm_num), hexp, zpow_natCast]

/-- Rounding reaches a power of two from half a spacing below it on. -/
theorem two_pow_le_nearestRank_iff (k : Nat) (x : Rat) (hx : 0 < x) :
    (k + 1024) * binadeSize ≤ nearestRank x
      ↔ (2 : Rat) ^ (k + 1) - (2 : Rat) ^ ((k : Int) - 53) ≤ x := by
  have hpos := binadeSize_pos
  have hsplit : (k + 1024) * binadeSize = (k + 1022 + 1) * binadeSize + binadeSize := by ring
  have hsame : (k + 1 + 1023) * binadeSize = (k + 1024) * binadeSize := by ring
  set last := (k + 1022 + 1) * binadeSize + (binadeSize - 1)
  have hnext : last + 1 = (k + 1024) * binadeSize := by omega
  have hodd : last % 2 = 1 := by
    have heven : (k + 1024) * binadeSize % 2 = 0 := by
      rw [Nat.mul_mod, show binadeSize % 2 = 0 by decide, Nat.mul_zero, Nat.zero_mod]
    omega
  have hexp : ((k + 1022 : Nat) : Int) - 1074 = ((k : Int) - 53) + 1 := by
    push_cast
    ring
  have hspacing : spacing last = 2 * (2 : Rat) ^ ((k : Int) - 53) := by
    rw [spacing_later _ _ (by omega), hexp, zpow_add_one₀ (by norm_num), mul_comm]
  have hvalue : rankValue (last + 1) = (2 : Rat) ^ (k + 1) := by
    rw [hnext, ← hsame, rankValue_two_pow]
  have hsucc := rankValue_succ last
  rw [← hnext, succ_le_nearestRank_iff last hodd x hx]
  constructor <;> intro h <;> linarith

/-- Zero does not lie between the two numbers. -/
def SameSide (x y : Rat) : Prop :=
  (0 ≤ x → 0 ≤ y) ∧ (x ≤ 0 → y ≤ 0)

theorem SameSide.trans {x y z : Rat} (hxy : SameSide x y) (hyz : SameSide y z) : SameSide x z :=
  ⟨fun h => hyz.1 (hxy.1 h), fun h => hyz.2 (hxy.2 h)⟩

theorem SameSide.mul_right (x c : Rat) (hc : 0 ≤ c) : SameSide x (x * c) :=
  ⟨fun h => mul_nonneg h hc, fun h => mul_nonpos_of_nonpos_of_nonneg h hc⟩

/-- Numbers on one side of zero are no further apart than one of them is from
    zero. -/
theorem SameSide.abs_sub_le {x y bound : Rat} (h : SameSide x y) (hx : |x| ≤ bound)
    (hy : |y| ≤ bound) : |x - y| ≤ bound := by
  rcases abs_le.mp hx with ⟨hxl, hxu⟩
  rcases abs_le.mp hy with ⟨hyl, hyu⟩
  rw [abs_le]
  rcases le_total 0 x with hsign | hsign
  · have hy' := h.1 hsign
    exact ⟨by linarith, by linarith⟩
  · have hy' := h.2 hsign
    exact ⟨by linarith, by linarith⟩

namespace Binary64

theorem round_of_neg (zeroSign : Bool) (x : Rat) (h : x < 0) :
    round zeroSign x = ofRank true (nearestRank (-x)) := by
  rw [round, if_neg h.ne, if_pos h]

theorem round_of_pos (zeroSign : Bool) (x : Rat) (h : 0 < x) :
    round zeroSign x = ofRank false (nearestRank x) := by
  rw [round, if_neg h.ne', if_neg (not_lt.mpr h.le)]

/-- The double is finite, and no further from zero than the bound. -/
def AtMost (bound : Rat) (x : Binary64) : Prop :=
  x.isFinite = true ∧ |x.value| ≤ bound

theorem abs_signedValue (negative : Bool) (rank : Nat) :
    |signedValue negative rank| = rankValue rank := by
  cases negative
  · exact abs_of_nonneg (rankValue_nonneg rank)
  · exact (abs_neg _).trans (abs_of_nonneg (rankValue_nonneg rank))

theorem signedValue_zero (negative : Bool) : signedValue negative 0 = 0 := by
  cases negative <;> simp only [signedValue, rankValue_zero, neg_zero, ite_self]

theorem atMost_ofRank (negative : Bool) (rank bound : Nat) (h : rank ≤ bound)
    (hbound : bound < finiteCount) : (ofRank negative rank).AtMost (rankValue bound) := by
  rw [ofRank, dif_pos (h.trans_lt hbound)]
  exact ⟨rfl, (abs_signedValue negative rank).le.trans (rankValue_strictMono.monotone h)⟩

/-- Rounding stays within the value of a rank. -/
theorem atMost_round (zeroSign : Bool) (x : Rat) (bound : Nat) (hbound : bound < finiteCount)
    (h : |x| ≤ rankValue bound) : (round zeroSign x).AtMost (rankValue bound) := by
  have hnearest (y : Rat) (hy : 0 < y) (hle : y ≤ rankValue bound) : nearestRank y ≤ bound := by
    have hpos : 0 < bound := by
      refine Nat.pos_of_ne_zero (fun hzero => ?_)
      rw [hzero, rankValue_zero] at hle
      linarith
    rw [← nearestRank_rankValue bound hpos]
    exact nearestRank_mono y _ hy hle
  rcases abs_le.mp h with ⟨hlower, hupper⟩
  unfold round
  split_ifs with hzero hneg
  · refine ⟨rfl, ?_⟩
    rw [hzero, abs_zero] at h
    change |signedValue zeroSign 0| ≤ _
    rw [signedValue_zero, abs_zero]
    exact h
  · exact atMost_ofRank true _ bound (hnearest (-x) (by linarith) (by linarith)) hbound
  · have hpos : 0 < x := lt_of_le_of_ne (not_lt.mp hneg) (Ne.symm hzero)
    exact atMost_ofRank false _ bound (hnearest x hpos hupper) hbound

/-- Rounding does not cross zero. -/
theorem sameSide_round (zeroSign : Bool) (x : Rat) : SameSide x (round zeroSign x).value := by
  have hvalue (negative : Bool) (rank : Nat) :
      (ofRank negative rank).value = 0 ∨
        (ofRank negative rank).value = signedValue negative rank := by
    unfold ofRank
    split_ifs
    · exact Or.inr rfl
    · exact Or.inl rfl
  unfold round
  split_ifs with hzero hneg
  · have hz : (zero zeroSign).value = 0 := signedValue_zero zeroSign
    exact ⟨fun _ => hz.ge, fun _ => hz.le⟩
  · refine ⟨fun h => absurd h (not_le.mpr hneg), fun _ => ?_⟩
    rcases hvalue true (nearestRank (-x)) with h | h
    · exact h.le
    · exact h.trans_le (neg_nonpos.mpr (rankValue_nonneg _))
  · refine ⟨fun _ => ?_, fun h => absurd (le_antisymm h (not_lt.mp hneg)) hzero⟩
    rcases hvalue false (nearestRank x) with h | h
    · exact h.ge
    · exact (rankValue_nonneg _).trans h.ge

/-- Rounding leaves the value of a double alone. -/
theorem value_round (zeroSign : Bool) (x : Binary64) : (round zeroSign x.value).value = x.value := by
  have hzero : (round zeroSign 0).value = 0 := by
    have h := sameSide_round zeroSign 0
    exact le_antisymm (h.2 le_rfl) (h.1 le_rfl)
  cases x with
  | nan _ => exact hzero
  | infinite _ => exact hzero
  | finite negative rank =>
      rcases Nat.eq_zero_or_pos rank with hrank | hrank
      · rw [value, hrank, signedValue_zero, hzero]
      · have hpos := rankValue_pos rank hrank
        cases negative with
        | false =>
            have hvalue : (finite false rank).value = rankValue rank := rfl
            rw [hvalue, round_of_pos zeroSign _ hpos, nearestRank_rankValue rank hrank, ofRank,
              dif_pos rank.isLt]
            rfl
        | true =>
            have hvalue : (finite true rank).value = -rankValue rank := rfl
            rw [hvalue, round_of_neg zeroSign _ (neg_lt_zero.mpr hpos), neg_neg,
              nearestRank_rankValue rank hrank, ofRank, dif_pos rank.isLt]
            rfl

/-- Rounding stays within a power of two. -/
theorem atMost_round_two_pow (zeroSign : Bool) (x : Rat) (k : Nat) (hk : k ≤ 1023)
    (h : |x| ≤ (2 : Rat) ^ k) : (round zeroSign x).AtMost ((2 : Rat) ^ k) := by
  have hcount : finiteCount = 2047 * binadeSize := by decide
  have hbound : (k + 1023) * binadeSize < finiteCount := by
    rw [hcount]
    exact Nat.mul_lt_mul_of_pos_right (by omega) binadeSize_pos
  rw [← rankValue_two_pow] at h ⊢
  exact atMost_round zeroSign x _ hbound h

/-! ## Operations on finite doubles -/

theorem mul_eq_round (x y : Binary64) (hx : x.isFinite = true) (hy : y.isFinite = true) :
    ∃ zeroSign, x * y = round zeroSign (x.value * y.value) := by
  cases x <;> cases y <;> simp only [isFinite, Bool.false_eq_true] at hx hy
  exact ⟨_, rfl⟩

theorem sub_eq_round (x y : Binary64) (hx : x.isFinite = true) (hy : y.isFinite = true) :
    ∃ zeroSign, x - y = round zeroSign (x.value - y.value) := by
  cases x with
  | nan _ | infinite _ => cases hx
  | finite s a =>
      cases y with
      | nan _ | infinite _ => cases hy
      | finite t b =>
          have hneg : (finite t b).value = -signedValue (!t) b := by
            cases t <;> simp [value, signedValue]
          rw [hneg, sub_neg_eq_add]
          exact ⟨_, rfl⟩

theorem div_eq_round (x y : Binary64) (hx : x.isFinite = true) (hy : y.isFinite = true)
    (hzero : y.value ≠ 0) : ∃ zeroSign, x / y = round zeroSign (x.value / y.value) := by
  cases x with
  | nan _ | infinite _ => cases hx
  | finite s a =>
      cases y with
      | nan _ | infinite _ => cases hy
      | finite t b =>
          have hb : (b : Nat) ≠ 0 := by
            intro hb
            exact hzero (by rw [value, hb, signedValue_zero])
          change ∃ zeroSign, (if (b : Nat) = 0 then _ else _) = _
          rw [if_neg hb]
          exact ⟨_, rfl⟩

/-! ## Overflow -/

theorem isFinite_ofRank (negative : Bool) (rank : Nat) :
    (ofRank negative rank).isFinite = true ↔ rank < finiteCount := by
  unfold ofRank
  split_ifs with h
  · exact iff_of_true rfl h
  · exact iff_of_false nofun h

/-- The numbers that round to a finite double. -/
theorem isFinite_round_iff (zeroSign : Bool) (x : Rat) :
    (round zeroSign x).isFinite = true ↔ |x| < (2 : Rat) ^ 1024 - (2 : Rat) ^ 970 := by
  have hcount : finiteCount = (1023 + 1024) * binadeSize := by decide
  have hlt (y : Rat) (hy : 0 < y) :
      nearestRank y < finiteCount ↔ y < (2 : Rat) ^ 1024 - (2 : Rat) ^ 970 := by
    have hreach := two_pow_le_nearestRank_iff 1023 y hy
    rw [show ((1023 : Nat) : Int) - 53 = (970 : Nat) by rfl, zpow_natCast] at hreach
    rw [hcount, ← not_le, hreach, not_le]
  unfold round
  split_ifs with hzero hneg
  · have hpos : (0 : Rat) < (2 : Rat) ^ 1024 - (2 : Rat) ^ 970 :=
      sub_pos.mpr (pow_lt_pow_right₀ (by norm_num) (by norm_num))
    rw [hzero, abs_zero]
    exact iff_of_true rfl hpos
  · rw [isFinite_ofRank, abs_of_neg hneg, hlt _ (neg_pos.mpr hneg)]
  · have hpos : 0 < x := lt_of_le_of_ne (not_lt.mp hneg) (Ne.symm hzero)
    rw [isFinite_ofRank, abs_of_pos hpos, hlt x hpos]

/-- The integers that are beyond all doubles. -/
theorem ofInt?_eq_none_iff (n : Int) : ofInt? n = none ↔ 2 ^ 1024 - 2 ^ 970 ≤ |n| := by
  have hcast : 2 ^ 1024 - 2 ^ 970 ≤ |n| ↔ (2 : Rat) ^ 1024 - (2 : Rat) ^ 970 ≤ |(n : Rat)| := by
    rw [← Int.cast_abs, ← Int.cast_le (R := Rat)]
    simp only [Int.cast_sub, Int.cast_pow, Int.cast_ofNat]
  rw [hcast, ← not_lt, ← isFinite_round_iff false]
  unfold ofInt?
  simp only [ite_eq_right_iff, reduceCtorEq, imp_false]

end Binary64

end PicoTime
