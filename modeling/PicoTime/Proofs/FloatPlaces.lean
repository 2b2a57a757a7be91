import PicoTime.Proofs.RoundingError
import PicoTime.Timestamp.Float

/-!
# Seconds Taken Apart

Taking a double apart into places goes back and forth between doubles and
integers, seven times in all. Any of these conversions could fail, since an
integer may be beyond all doubles, and what is not finite has no integer part.
None of them fails for a finite double, and the first one fails for any other.

The high digit needs care, because it may come from a double of any size. A
division by the radix is exact from one on, so the high digit is the exact one
there, and below one it is at most one off. It is either small or an integral
quotient, so that it is a double, and its product with the radix is a double as
well. What is left is then no more than the radix, however large the double is,
and each later step is off by no more than the rounding of a number of known
size. All of them together are off by less than seven picoseconds. An integral
double leaves nothing to be rounded, and its places are exact.

## Main definitions

* `Binary64.truncate?`: The integer part, if there is one.
* `Binary64.ExactHigh`: A high digit that is exact as a double.
* `Binary64.HighOf`: The high digit of a double.
* `Components.ofFloatChecked?`: The places, with every conversion checked.

## Theorems

* `Binary64.exactly_ofInt`: Integers of no more digits than a double has.
* `Binary64.integer_or_lt`: A double that is no integer is small.
* `Binary64.exactly_div_lowRadix`, `Binary64.exactly_mul_lowRadix`: The radix
  takes a double to another.
* `Binary64.exists_highOf`: Every finite double has a high digit.
* `Binary64.below_high_spec`, `Binary64.below_second_spec`: The lower places.
* `Components.exists_ofFloatChecked?`: The places are near the double.
* `Components.ofFloatChecked?_eq`: Checking changes nothing.
-/

namespace PicoTime

namespace Binary64

/-! ## Integers and doubles -/

/-- The integer part of a double, if it is finite. -/
def truncate? (x : Binary64) : Option Int :=
  if x.isFinite then some x.truncate else none

theorem exactly_ofInt (n : Int) (hn : |n| ≤ 2 ^ 53) : (ofInt n).Exactly n :=
  (rounds_round false n).exactly_intCast hn

theorem lowRadix_spec : lowRadix.Exactly 65536 :=
  exactly_ofInt 65536 (by norm_num)

theorem million_spec : million.Exactly 1000000 :=
  exactly_ofInt 1000000 (by norm_num)

theorem picosPerSecond_spec : picosPerSecond.Exactly 1000000000000 :=
  exactly_ofInt 1000000000000 (by norm_num)

theorem ofInt?_eq_some (n : Int) (h : (ofInt n).isFinite = true) : ofInt? n = some (ofInt n) :=
  if_pos h

/-- The values of the later ranks are integers. -/
theorem exists_natCast_rankValue (rank : Nat) (h : 1075 * binadeSize ≤ rank) :
    ∃ n : Nat, rankValue rank = n := by
  have hplace := Nat.mod_lt rank binadeSize_pos
  have hbinade : 1075 ≤ rank / binadeSize := (Nat.le_div_iff_mul_le binadeSize_pos).mpr h
  rw [← Nat.div_add_mod' rank binadeSize]
  generalize rank % binadeSize = place at hplace
  rcases Nat.exists_eq_add_of_le hbinade with ⟨e, he⟩
  have hsplit : 1075 + e = (1074 + e) + 1 := by omega
  have hexp : ((1074 + e : Nat) : Int) - 1074 = e := by omega
  refine ⟨(binadeSize + place) * 2 ^ e, ?_⟩
  rw [he, hsplit, rankValue_later _ place hplace, hexp, zpow_natCast]
  push_cast
  ring

theorem sameSide_floor (x : Rat) : SameSide x (⌊x⌋ : Int) := by
  refine ⟨fun h => ?_, fun h => (Int.floor_le x).trans h⟩
  exact_mod_cast Int.floor_nonneg.mpr h

/-- The floor stays within an integer bound. -/
theorem abs_floor_le (x : Rat) (n : Nat) (h : |x| ≤ n) : |((⌊x⌋ : Int) : Rat)| ≤ n := by
  rcases abs_le.mp h with ⟨hlower, hupper⟩
  have hle : -(n : Int) ≤ ⌊x⌋ := Int.le_floor.mpr (by push_cast; exact hlower)
  rw [abs_le]
  exact ⟨by exact_mod_cast hle, (Int.floor_le x).trans hupper⟩

/-- The integer part is no further from zero, and no more than one is cut off. -/
theorem truncate_spec (x : Binary64) :
    |(x.truncate : Rat)| ≤ |x.value| ∧ |x.value - x.truncate| ≤ 1 := by
  have hfloor (y : Rat) (hy : 0 ≤ y) : |((⌊y⌋ : Int) : Rat)| ≤ |y| ∧ |y - (⌊y⌋ : Int)| ≤ 1 := by
    have hle := Int.floor_le y
    have hlt := Int.lt_floor_add_one y
    rw [abs_of_nonneg ((sameSide_floor y).1 hy), abs_of_nonneg hy,
      abs_of_nonneg (sub_nonneg.mpr hle)]
    exact ⟨hle, by linarith⟩
  unfold truncate
  split_ifs with hneg
  · have hcast : ((-(-x.value).floor : Int) : Rat) = -((⌊-x.value⌋ : Int) : Rat) := Int.cast_neg _
    rw [hcast, abs_neg, ← abs_neg x.value, ← abs_neg (x.value - _), neg_sub, neg_sub_comm]
    exact hfloor (-x.value) (by linarith)
  · exact hfloor x.value (not_lt.mp hneg)

/-- A double that is an integer is its own integer part. -/
theorem truncate_of_integer (x : Binary64) (n : Int) (h : x.value = n) : x.truncate = n := by
  unfold truncate
  rw [h]
  split_ifs
  · rw [← Int.cast_neg]
    exact (congrArg Neg.neg (Int.floor_intCast (R := Rat) (-n))).trans (neg_neg n)
  · exact Int.floor_intCast (R := Rat) n

/-- A double that is no integer is small. -/
theorem integer_or_lt (x : Binary64) :
    (∃ n : Int, x.value = n) ∨ |x.value| < (2 : Rat) ^ 52 := by
  cases x with
  | nan _ | infinite _ => exact Or.inl ⟨0, Int.cast_zero.symm⟩
  | finite negative rank =>
      by_cases hlater : 1075 * binadeSize ≤ rank
      · rcases exists_natCast_rankValue rank hlater with ⟨n, hn⟩
        refine Or.inl ?_
        cases negative
        · exact ⟨n, hn⟩
        · refine ⟨-n, ?_⟩
          rw [Int.cast_neg, Int.cast_natCast, ← hn]
          rfl
      · refine Or.inr ?_
        rw [value, abs_signedValue, ← rankValue_two_pow]
        exact rankValue_strictMono (not_le.mp hlater)

theorem floor?_of_isFinite (x : Binary64) (hx : x.isFinite = true) :
    x.floor? = some ⌊x.value⌋ := by
  cases x with
  | nan _ | infinite _ => cases hx
  | finite negative rank => rfl

/-- What is not finite is not so either after a division, and has no floor. -/
theorem floor?_div_of_not_finite (x y : Binary64) (hx : x.isFinite = false)
    (hy : y.isFinite = true) : (x / y).floor? = none := by
  cases x with
  | finite _ _ => cases hx
  | nan _ => rfl
  | infinite _ =>
      cases y with
      | nan _ | infinite _ => cases hy
      | finite _ _ => rfl

/-! ## The high digit -/

/-- Further binades double the value, whatever the sign. -/
theorem signedValue_add_binades (negative : Bool) (rank count : Nat) (h : binadeSize ≤ rank) :
    signedValue negative (rank + count * binadeSize)
      = signedValue negative rank * (2 : Rat) ^ count := by
  have hvalue := rankValue_add_binades rank count h
  cases negative <;>
    simp only [signedValue, hvalue, if_true, Bool.false_eq_true, if_false, neg_mul]

/-- One is the value of a rank far past the first binades. -/
theorem le_of_one_le_rankValue (rank : Nat) (h : 1 ≤ rankValue rank) :
    17 * binadeSize ≤ rank := by
  have hone := rankValue_two_pow 0
  rw [pow_zero] at hone
  rw [← hone] at h
  exact (Nat.mul_le_mul_right _ (by norm_num)).trans (rankValue_strictMono.le_iff_le.mp h)

/-- Dividing by the radix is exact from one on. -/
theorem exactly_div_lowRadix (x : Binary64) (hx : x.isFinite = true) (h : 1 ≤ |x.value|) :
    (x / lowRadix).Exactly (x.value / 65536) := by
  have hrounds := (exactly_of_isFinite x hx).div lowRadix_spec (by norm_num)
  cases x with
  | nan _ | infinite _ => cases hx
  | finite negative rank =>
      rw [value, abs_signedValue] at h
      have hrank := le_of_one_le_rankValue rank h
      rcases Nat.exists_eq_add_of_le' ((Nat.mul_le_mul_right binadeSize
        (by norm_num : 16 ≤ 17)).trans hrank) with ⟨before, hbefore⟩
      have hvalue := signedValue_add_binades negative before 16 (by omega)
      rw [← hbefore] at hvalue
      refine hrounds.exactly (y := finite negative ⟨before, by omega⟩) ⟨rfl, ?_⟩
      refine ((div_eq_iff (by norm_num)).mpr (hvalue.trans ?_)).symm
      norm_num [value]

/-- Multiplying an integer by the radix is exact. -/
theorem exactly_mul_lowRadix (x : Binary64) (n : Int) (hx : x.Exactly n) (hn : |n| ≤ 2 ^ 53) :
    (x * lowRadix).Exactly (n * 65536) := by
  have hrounds := hx.mul lowRadix_spec
  have hbound : |(n : Rat)| ≤ (2 : Rat) ^ 53 := by exact_mod_cast hn
  rcases hx with ⟨hx, hvalue⟩
  cases x with
  | nan _ | infinite _ => cases hx
  | finite negative rank =>
      by_cases hzero : n = 0
      · subst hzero
        rw [Int.cast_zero, zero_mul] at hrounds ⊢
        exact_mod_cast hrounds.exactly_intCast (n := 0) (by norm_num)
      have hone : (1 : Rat) ≤ |(n : Rat)| := by exact_mod_cast Int.one_le_abs hzero
      rw [← hvalue, value, abs_signedValue] at hone hbound
      rw [← rankValue_two_pow] at hbound
      have hlow := le_of_one_le_rankValue rank hone
      have hhigh := rankValue_strictMono.le_iff_le.mp hbound
      have hcount : (53 + 1023) * binadeSize + 16 * binadeSize < finiteCount := by decide
      have hscaled := signedValue_add_binades negative rank 16 (by omega)
      refine hrounds.exactly (y := finite negative ⟨rank + 16 * binadeSize, by omega⟩) ⟨rfl, ?_⟩
      rw [value, hscaled, ← hvalue, value]
      norm_num

/-- The high digit is exact as a double, and so is its number of seconds. -/
def ExactHigh (n : Int) : Prop :=
  (ofInt n).Exactly n ∧ (ofInt n * lowRadix).Exactly (n * 65536)

/-- The high digits that are small are exact. -/
theorem exactHigh_of_le (n : Int) (hn : |n| ≤ 2 ^ 53) : ExactHigh n :=
  ⟨exactly_ofInt n hn, exactly_mul_lowRadix _ n (exactly_ofInt n hn) hn⟩

/-- The high digit of a number: it is exact as a double, what is left below it
    is no more than the radix, and of an integer it is the exact quotient. -/
structure HighOf (x : Binary64) (high : Int) : Prop where
  exactHigh : ExactHigh high
  below : |x.value - high * 65536| ≤ 65536
  whole : ∀ n : Int, x.value = n → high = n / 65536

/-- From one on the quotient is exact. -/
theorem highOf_of_one_le (x : Binary64) (hx : x.isFinite = true) (h : 1 ≤ |x.value|) :
    (x / lowRadix).isFinite = true ∧ x.HighOf ⌊(x / lowRadix).value⌋ := by
  rcases exactly_div_lowRadix x hx h with ⟨hdiv, hvalue⟩
  refine ⟨hdiv, ?_, ?_, fun n hn => ?_⟩
  · rcases (x / lowRadix).integer_or_lt with ⟨n, hn⟩ | hsmall
    · -- The quotient is the high digit itself.
      have hscaled : x.value = n * 65536 := by
        rw [← hn, hvalue, div_mul_cancel₀ _ (by norm_num)]
      have hint : (ofInt n).Exactly n := (rounds_round false _).exactly ⟨hdiv, hn⟩
      rw [hn, Int.floor_intCast]
      exact ⟨hint, (hint.mul lowRadix_spec).exactly ⟨hx, hscaled⟩⟩
    · have hfloor := abs_floor_le _ (2 ^ 52) (hsmall.le.trans (by norm_num))
      have hle : |⌊(x / lowRadix).value⌋| ≤ 2 ^ 52 := by exact_mod_cast hfloor
      exact exactHigh_of_le _ (hle.trans (by norm_num))
  · have hle := Int.floor_le (x / lowRadix).value
    have hlt := Int.lt_floor_add_one (x / lowRadix).value
    generalize ⌊(x / lowRadix).value⌋ = high at *
    rw [hvalue] at hle hlt
    rw [abs_le]
    constructor <;> linarith
  · rw [hvalue, hn]
    exact Rat.floor_intCast_div_natCast n 65536

/-- Below one the quotient is at most one, and on the side of the double. -/
theorem highOf_of_lt_one (x : Binary64) (hx : x.isFinite = true) (h : |x.value| < 1) :
    (x / lowRadix).isFinite = true ∧ x.HighOf ⌊(x / lowRadix).value⌋ := by
  have hradix : (0 : Rat) < 65536 := by norm_num
  rcases (exactly_of_isFinite x hx).div lowRadix_spec hradix.ne' with ⟨zeroSign, hround⟩
  have hquotient : |x.value / 65536| ≤ (2 : Rat) ^ 0 := by
    rw [abs_div, abs_of_pos hradix]
    linarith
  have hmost := atMost_round_two_pow zeroSign _ 0 (by norm_num) hquotient
  have hside : SameSide x.value (x / lowRadix).value := by
    rw [hround, div_eq_mul_inv]
    exact (SameSide.mul_right _ _ (by norm_num)).trans (sameSide_round zeroSign _)
  rw [← hround] at hmost
  replace hside := hside.trans (sameSide_floor _)
  have hfloor := abs_floor_le _ 1 (hmost.2.trans (by norm_num))
  generalize ⌊(x / lowRadix).value⌋ = high at *
  rw [Nat.cast_one] at hfloor
  refine ⟨hmost.1, ?_, ?_, fun n hn => ?_⟩
  · have hle : |high| ≤ 1 := by exact_mod_cast hfloor
    exact exactHigh_of_le _ (hle.trans (by norm_num))
  · refine (hside.trans (SameSide.mul_right _ 65536 hradix.le)).abs_sub_le
      (h.le.trans (by norm_num)) ?_
    rw [abs_mul, abs_of_pos hradix]
    linarith
  · have hzero : n = 0 := by
      rw [hn] at h
      exact Int.abs_lt_one_iff.mp (by exact_mod_cast h)
    rw [hn, hzero, Int.cast_zero] at hside
    rw [hzero, Int.zero_ediv]
    exact_mod_cast le_antisymm (hside.2 le_rfl) (hside.1 le_rfl)

/-- Every finite double has a high digit. -/
theorem exists_highOf (x : Binary64) (hx : x.isFinite = true) :
    ∃ high, (x / lowRadix).floor? = some high ∧ x.HighOf high := by
  rcases le_or_gt 1 |x.value| with hone | hone
  · rcases highOf_of_one_le x hx hone with ⟨hdiv, hhigh⟩
    exact ⟨_, floor?_of_isFinite _ hdiv, hhigh⟩
  · rcases highOf_of_lt_one x hx hone with ⟨hdiv, hhigh⟩
    exact ⟨_, floor?_of_isFinite _ hdiv, hhigh⟩

/-! ## The lower places -/

/-- What is left below the second, of a number no greater than the radix. -/
theorem below_high_spec (x : Binary64) (hx : x.AtMost ((2 : Rat) ^ 16)) :
    (ofInt x.truncate).isFinite = true ∧
      (x - ofInt x.truncate).Near ((2 : Rat) ^ (-54 : Int)) (x.value - x.truncate) ∧
      (x - ofInt x.truncate).AtMost ((2 : Rat) ^ 0) ∧
      ∀ n : Int, x.value = n → x.truncate = n ∧ (x - ofInt x.truncate).value = 0 := by
  have hle := (truncate_spec x).1.trans hx.2
  have hlow : (ofInt x.truncate).Exactly x.truncate := by
    have hle' : |x.truncate| ≤ 2 ^ 16 := by exact_mod_cast hle
    exact exactly_ofInt _ (hle'.trans (by norm_num))
  have hrounds := (exactly_of_isFinite x hx.1).sub hlow
  have hrest : |x.value - x.truncate| ≤ (2 : Rat) ^ 0 := (truncate_spec x).2
  refine ⟨hlow.1, hrounds.near 0 (by norm_num) hrest, hrounds.atMost 0 (by norm_num) hrest,
    fun n hn => ⟨truncate_of_integer x n hn, ?_⟩⟩
  rw [truncate_of_integer x n hn] at hrounds ⊢
  rw [hn, sub_self, ← Int.cast_zero] at hrounds
  exact (hrounds.exactly_intCast (by norm_num)).2.trans Int.cast_zero

/-- The places below the second count the picoseconds, up to two. -/
theorem below_second_spec (x : Binary64) (hx : x.AtMost ((2 : Rat) ^ 0)) :
    let picos := x * picosPerSecond
    let micro := (picos / million).truncate
    let pico := (picos - ofInt micro * million).truncate
    ((picos / million).isFinite = true ∧ (ofInt micro).isFinite = true ∧
      (picos - ofInt micro * million).isFinite = true) ∧
      |(micro * 1000000 + pico : Rat) - x.value * 1000000000000| ≤ 2 ∧
      (x.value = 0 → micro = 0 ∧ pico = 0) := by
  intro picos micro pico
  have hpicos := (exactly_of_isFinite x hx.1).mul picosPerSecond_spec
  have hpicosSize : |x.value * 1000000000000| ≤ (2 : Rat) ^ 40 := by
    rw [abs_mul, abs_of_pos (by norm_num : (0 : Rat) < 1000000000000)]
    linarith [hx.2]
  have hpicosNear := hpicos.near 40 (by norm_num) hpicosSize
  have hpicosLe := hpicos.atMost 40 (by norm_num) hpicosSize
  have hquotient := (exactly_of_isFinite picos hpicosLe.1).div million_spec (by norm_num)
  have hquotientLe := hquotient.atMost 21 (by norm_num) (by
    rw [abs_div, abs_of_pos (by norm_num : (0 : Rat) < 1000000), div_le_iff₀ (by norm_num)]
    exact hpicosLe.2.trans (by norm_num))
  have hmicroLe : |micro| ≤ 2 ^ 21 := by
    exact_mod_cast (truncate_spec _).1.trans hquotientLe.2
  have hmicro := exactly_ofInt micro (hmicroLe.trans (by norm_num))
  have hproductLe : |micro * 1000000| ≤ 2 ^ 41 := by
    rw [abs_mul, abs_of_pos (by norm_num : (0 : Int) < 1000000)]
    linarith
  have hproduct : (ofInt micro * million).Exactly ((micro * 1000000 : Int) : Rat) := by
    have hrounds := hmicro.mul million_spec
    exact Rounds.exactly_intCast (by exact_mod_cast hrounds) (hproductLe.trans (by norm_num))
  have hrest := (exactly_of_isFinite picos hpicosLe.1).sub hproduct
  have hrestSize : |picos.value - ((micro * 1000000 : Int) : Rat)| ≤ (2 : Rat) ^ 42 := by
    have hcast : |((micro * 1000000 : Int) : Rat)| ≤ (2 : Rat) ^ 41 := by exact_mod_cast hproductLe
    refine (abs_sub _ _).trans ?_
    linarith [hpicosLe.2]
  have hrestNear := hrest.near 42 (by norm_num) hrestSize
  refine ⟨⟨hquotientLe.1, hmicro.1, hrestNear.1⟩, ?_, fun hzero => ?_⟩
  · have hfirst := abs_le.mp hpicosNear.2
    have hlast := abs_le.mp hrestNear.2
    have hcut := abs_le.mp (truncate_spec (picos - ofInt micro * million)).2
    norm_num at hfirst hlast
    rw [abs_le]
    constructor <;> linarith
  · -- Nothing is left to be rounded.
    have hpicosZero : picos.value = 0 := by
      rw [hzero, zero_mul, ← Int.cast_zero] at hpicos
      exact (hpicos.exactly_intCast (by norm_num)).2.trans Int.cast_zero
    have hmicroZero : micro = 0 := by
      rw [hpicosZero, zero_div, ← Int.cast_zero] at hquotient
      exact truncate_of_integer _ 0 (hquotient.exactly_intCast (by norm_num)).2
    have hnothing : picos.value - ((micro * 1000000 : Int) : Rat) = ((0 : Int) : Rat) := by
      rw [hpicosZero, hmicroZero, zero_mul, Int.cast_zero, sub_zero]
    rw [hnothing] at hrest
    exact ⟨hmicroZero, truncate_of_integer _ 0 (hrest.exactly_intCast (by norm_num)).2⟩

end Binary64

open Binary64

/-- The places of a number of seconds, with every conversion on the way
    checked. -/
def Components.ofFloatChecked? (x : Binary64) : Option Components := do
  let high ← (x / lowRadix).floor?
  let highFloat ← ofInt? high
  let rest := x - highFloat * lowRadix
  let low ← rest.truncate?
  let lowFloat ← ofInt? low
  let picos := (rest - lowFloat) * picosPerSecond
  let micro ← (picos / million).truncate?
  let microFloat ← ofInt? micro
  let pico ← (picos - microFloat * million).truncate?
  return ⟨high, low, micro, pico⟩

/-- No conversion on the way fails for a finite double. The places count what
    it stands for, up to seven picoseconds, and exactly if it is an integer. -/
theorem Components.exists_ofFloatChecked? (x : Binary64) (hx : x.isFinite = true) :
    ∃ c, ofFloatChecked? x = some c ∧ ofFloat? x = some c ∧
      |(c.picoseconds : Rat) - x.value * 1000000000000| ≤ 7 ∧
      ExactHigh c.high ∧
      ∀ n : Int, x.value = n → c = ⟨n / 65536, n % 65536, 0, 0⟩ := by
  rcases exists_highOf x hx with ⟨high, hfloor, hhigh⟩
  have hrest := (exactly_of_isFinite x hx).sub hhigh.exactHigh.2
  have hbelow : |x.value - high * 65536| ≤ (2 : Rat) ^ 16 := hhigh.below.trans (by norm_num)
  have hrestNear := hrest.near 16 (by norm_num) hbelow
  rcases below_high_spec _ (hrest.atMost 16 (by norm_num) hbelow) with
    ⟨hlow, hsecond, hsecondLe, hrestWhole⟩
  rcases below_second_spec _ hsecondLe with ⟨⟨hquotient, hmicro, hpico⟩, hcount, hsecondZero⟩
  refine ⟨_, ?_, by rw [ofFloat?, hfloor]; rfl, ?_, hhigh.exactHigh, fun n hn => ?_⟩
  · unfold ofFloatChecked?
    simp only [hfloor, ofInt?_eq_some _ hhigh.exactHigh.1.1, ofInt?_eq_some _ hlow,
      ofInt?_eq_some _ hmicro, truncate?, hrestNear.1, hquotient, hpico, if_true,
      Option.bind_eq_bind, Option.bind_some, Option.pure_def]
  · have hfirst := abs_le.mp hrestNear.2
    have hlast := abs_le.mp hsecond.2
    norm_num at hfirst hlast
    rw [abs_le] at hcount ⊢
    simp only [picoseconds]
    push_cast
    constructor <;> linarith
  · -- What is left of an integer is an integer.
    have hdivMod : x.value - high * 65536 = ((n % 65536 : Int) : Rat) := by
      rw [hhigh.whole n hn, hn, Int.emod_def]
      push_cast
      ring
    rw [hdivMod] at hrest
    have hrestValue := (hrest.exactly_intCast (by rw [abs_of_nonneg] <;> omega)).2
    rcases hrestWhole _ hrestValue with ⟨hlowEq, hsecondValue⟩
    rcases hsecondZero hsecondValue with ⟨hmicroEq, hpicoEq⟩
    rw [Components.mk.injEq]
    exact ⟨hhigh.whole n hn, hlowEq, hmicroEq, hpicoEq⟩

/-- Checking the conversions on the way changes nothing, and the doubles that
    have places are the finite ones. -/
theorem Components.ofFloatChecked?_eq (x : Binary64) :
    ofFloatChecked? x = ofFloat? x ∧ (ofFloat? x).isSome = x.isFinite := by
  rcases hx : x.isFinite with _ | _
  · have hfloor := floor?_div_of_not_finite x lowRadix hx lowRadix_spec.1
    rw [ofFloatChecked?, ofFloat?, hfloor]
    exact ⟨rfl, rfl⟩
  · rcases exists_ofFloatChecked? x hx with ⟨c, hchecked, hfree, -⟩
    rw [hchecked, hfree]
    exact ⟨rfl, rfl⟩

end PicoTime
