import PicoTime.Proofs.FloatAccuracy
import PicoTime.Proofs.Grid

/-!
# What Truncation Keeps

Eight operations take a double apart into places, and each of them rounds. Of
all the roundings only two are ever seen in the places. The high digit and the
integer parts are exact, differences stay on the grid of the double they are
taken from, and a quotient by a million has the integer part of the exact one.
What is left is the difference that puts the low seconds of a negative double
above zero, and the product that turns a fraction into picoseconds.

The product is rounded before it is cut off, so it may reach the next
picosecond although the double does not. The double misses it by less than a
ten-thousandth of one then. From `2 ^ 27` seconds on a double has so few places
left below the second that the product is exact, and truncation is what it
says.

The difference is worse. It is exact from zero on and up to the first high
digit below zero, since it takes the double towards zero. Between them it goes
from a number near zero to one near the radix and loses what does not fit
there, which is up to four picoseconds in either direction.

## Main definitions

* `Binary64.keptSeconds`: The seconds that are left of a double.
* `Binary64.roundedPicos`: Part of a second in picoseconds, rounded.

## Theorems

* `Binary64.floor_div_lowRadix`: The high digit is exact.
* `Binary64.low_spec`, `Binary64.picos_spec`: The lower places.
* `Components.picoseconds_ofFloat?`: The count of the places, with the two
  roundings in it.
* `Binary64.keptSeconds_eq`, `Binary64.abs_keptSeconds_sub_le`: What the first
  of them does.
* `Binary64.floor_roundedPicos`, `Binary64.roundedPicos_le`: What the second
  does.
* `Timestamp.picoseconds_ofSeconds`: How far a timestamp is from its seconds.
-/

namespace PicoTime

namespace Binary64

/-- The seconds that are left of a double when the high digit is taken off and
    put back. The difference between the two is rounded. -/
def keptSeconds (x : Binary64) : Rat :=
  ⌊x.value / 65536⌋ * 65536 + (round false (x.value - ⌊x.value / 65536⌋ * 65536)).value

/-- Part of a second in picoseconds, rounded. -/
def roundedPicos (fraction : Rat) : Rat :=
  (round false (fraction * 1000000000000)).value

/-! ## The high digit -/

/-- Above the multiple of the radix is less than the radix. -/
theorem mem_above_digit (v : Rat) :
    0 ≤ v - ⌊v / 65536⌋ * 65536 ∧ v - ⌊v / 65536⌋ * 65536 < 65536 := by
  have hle := Int.floor_le (v / 65536)
  have hlt := Int.lt_floor_add_one (v / 65536)
  rw [le_div_iff₀ (by norm_num)] at hle
  rw [div_lt_iff₀ (by norm_num)] at hlt
  constructor <;> linarith

theorem eq_floor_of_floor? (x : Binary64) (n : Int) (h : x.floor? = some n) : n = ⌊x.value⌋ := by
  cases x with
  | nan _ | infinite _ => cases h
  | finite negative rank => exact (Option.some.inj h).symm

theorem truncate_of_abs_lt_one (x : Binary64) (h : |x.value| < 1) : x.truncate = 0 := by
  have hlt := (truncate_spec x).1.trans_lt h
  exact Int.abs_lt_one_iff.mp (by exact_mod_cast hlt)

/-- The high digit is that of the exact quotient, unless the double is next to
    zero and below it and the quotient is rounded to zero. -/
theorem floor_div_lowRadix (x : Binary64) (hx : x.isFinite = true) :
    ⌊(x / lowRadix).value⌋ = ⌊x.value / 65536⌋ ∨
      ⌊(x / lowRadix).value⌋ = 0 ∧ -(2 : Rat) ^ (-100 : Int) < x.value ∧ x.value < 0 := by
  rcases le_or_gt 1 |x.value| with hone | hone
  · exact Or.inl (by rw [(exactly_div_lowRadix x hx hone).2])
  have hradix : (0 : Rat) < 65536 := by norm_num
  have hrounds := (exactly_of_isFinite x hx).div lowRadix_spec hradix.ne'
  have hquotient : |x.value / 65536| ≤ (2 : Rat) ^ 0 := by
    rw [abs_div, abs_of_pos hradix]
    linarith
  rcases hrounds.near 0 (by norm_num) hquotient with ⟨hfinite, herror⟩
  refine (hrounds.floor_value hfinite (hquotient.trans_lt (by norm_num))).imp_right fun hup => ?_
  have hcancel : x.value / 65536 * 65536 = x.value := div_mul_cancel₀ _ hradix.ne'
  have hside := hrounds.sameSide
  have hle := Int.floor_le (x / lowRadix).value
  rw [abs_lt] at hone
  rw [hup] at hle ⊢
  rcases lt_or_ge x.value 0 with hneg | hnonneg
  · -- The quotient is between minus one and zero, and has been rounded to zero.
    have hfloor : ⌊x.value / 65536⌋ = -1 := by
      rw [Int.floor_eq_iff]
      push_cast
      constructor <;> linarith
    rw [hfloor] at hle ⊢
    refine ⟨rfl, not_le.mp fun hfar => ?_, hneg⟩
    rcases exists_exactly_of_grid (e := -116) (q := -(2 : Rat) ^ (-116 : Int))
      ⟨-1, by rw [Int.cast_neg, Int.cast_one, neg_one_mul]⟩ (by norm_num) (by norm_num)
      (by norm_num) with ⟨y, hy⟩
    have hbelow := hrounds.value_le hfinite hy (by norm_num at hfar ⊢; linarith)
    norm_num at hle hbelow
    linarith
  · -- It is too small to be rounded to one.
    have hfloor : ⌊x.value / 65536⌋ = 0 := by
      rw [Int.floor_eq_iff]
      push_cast
      constructor <;> linarith
    rw [hfloor] at hle
    rw [abs_le] at herror
    norm_num at hle herror
    linarith

/-! ## The lower places -/

/-- The low seconds are cut off exactly, and so is what is left below them. -/
theorem low_spec (x : Binary64) (hx : x.isFinite = true) (hlow : 0 ≤ x.value)
    (hhigh : x.value ≤ 65536) :
    x.truncate = ⌊x.value⌋ ∧ (x - ofInt x.truncate).Exactly (Int.fract x.value) := by
  have htruncate := truncate_of_nonneg x hlow
  have hfloor := Int.floor_nonneg.mpr hlow
  have hbound : ⌊x.value⌋ ≤ 65536 := by exact_mod_cast (Int.floor_le x.value).trans hhigh
  have hrounds := (exactly_of_isFinite x hx).sub
    (exactly_ofInt ⌊x.value⌋ (by rw [abs_of_nonneg hfloor]; omega))
  have hfract := Int.fract_nonneg x.value
  have hlt := Int.fract_lt_one x.value
  have hle : Int.fract x.value ≤ x.value :=
    sub_le_self _ (by exact_mod_cast hfloor)
  refine ⟨htruncate, ?_⟩
  rw [htruncate]
  refine hrounds.exactly_sub_intCast hx ?_ ?_
  · rw [Int.self_sub_floor, abs_of_nonneg hfract, abs_of_nonneg hlow]
    exact hle
  · rw [Int.self_sub_floor, abs_of_nonneg hfract]
    exact hlt.trans (by norm_num)

/-- Micro- and picoseconds are the integer part of the picoseconds they are
    taken from. -/
theorem micro_spec (picos : Binary64) (hx : picos.isFinite = true) (hlow : 0 ≤ picos.value)
    (hhigh : picos.value ≤ (2 : Rat) ^ 40) :
    let micro := (picos / million).truncate
    micro * 1000000 + (picos - ofInt micro * million).truncate = ⌊picos.value⌋ := by
  intro micro
  have hquotient := (exactly_of_isFinite picos hx).div million_spec (by norm_num)
  have hmicro : micro = ⌊picos.value / 1000000⌋ := by
    rw [← (floor_div_million hlow hhigh hquotient).2]
    exact truncate_of_nonneg _ (hquotient.sameSide.1 (div_nonneg hlow (by norm_num)))
  have hnonneg : 0 ≤ micro := by
    rw [hmicro]
    exact Int.floor_nonneg.mpr (div_nonneg hlow (by norm_num))
  have hle : ((micro * 1000000 : Int) : Rat) ≤ picos.value := by
    push_cast
    rw [hmicro, ← le_div_iff₀ (by norm_num)]
    exact Int.floor_le _
  have hbound : micro * 1000000 ≤ 2 ^ 40 := by exact_mod_cast hle.trans hhigh
  have hproduct : (ofInt micro * million).Exactly ((micro * 1000000 : Int) : Rat) := by
    have hrounds := (exactly_ofInt micro (by rw [abs_of_nonneg hnonneg]; omega)).mul million_spec
    refine Rounds.exactly_intCast (by exact_mod_cast hrounds) ?_
    rw [abs_of_nonneg (by omega)]
    omega
  -- What is left below the microsecond is on the grid of the picoseconds.
  have hcast : (0 : Rat) ≤ ((micro * 1000000 : Int) : Rat) := by
    exact_mod_cast (by omega : 0 ≤ micro * 1000000)
  have hsub := sub_nonneg.mpr hle
  have hrest := ((exactly_of_isFinite picos hx).sub hproduct).exactly_sub_intCast hx
    (by rw [abs_of_nonneg hsub, abs_of_nonneg hlow]; linarith)
    (by
      rw [abs_of_nonneg hsub]
      exact (sub_le_self _ hcast).trans_lt (hhigh.trans_lt (by norm_num)))
  have hpico := truncate_of_nonneg (picos - ofInt micro * million) (by rw [hrest.2]; exact hsub)
  rw [hpico, hrest.2, Int.floor_sub_intCast, add_sub_cancel]

/-- A second has less than `2 ^ 40` picoseconds. -/
theorem abs_picos_le (f : Rat) (hlow : 0 ≤ f) (hhigh : f ≤ 1) :
    |f * 1000000000000| ≤ (2 : Rat) ^ 40 := by
  rw [abs_of_nonneg (by linarith)]
  linarith

/-- The places below the second count the integer part of the rounded
    picoseconds. -/
theorem picos_spec (x : Binary64) (hx : x.isFinite = true) (hlow : 0 ≤ x.value)
    (hhigh : x.value ≤ 1) :
    let picos := x * picosPerSecond
    let micro := (picos / million).truncate
    micro * 1000000 + (picos - ofInt micro * million).truncate = ⌊roundedPicos x.value⌋ := by
  intro picos micro
  have hpicos := (exactly_of_isFinite x hx).mul picosPerSecond_spec
  have hmost := hpicos.atMost 40 (by norm_num) (abs_picos_le _ hlow hhigh)
  have hcount := micro_spec picos hmost.1 (hpicos.sameSide.1 (by linarith))
    ((le_abs_self _).trans hmost.2)
  rw [roundedPicos, ← hpicos.value_eq]
  exact hcount

/-! ## Doubles next to zero -/

/-- Taking nothing from a double leaves it alone. -/
theorem Exactly.sub_zero {x y : Binary64} (hx : x.isFinite = true) (hy : y.Exactly 0) :
    (x - y).Exactly x.value := by
  have hrounds := (exactly_of_isFinite x hx).sub hy
  rw [show x.value - 0 = x.value by ring] at hrounds
  exact hrounds.exactly (exactly_of_isFinite x hx)

/-- The places below the high digit are zero for a double next to zero. -/
theorem places_of_tiny (x : Binary64) (hx : x.isFinite = true)
    (hsmall : |x.value| < (2 : Rat) ^ (-100 : Int)) :
    let picos := (x - ofInt x.truncate) * picosPerSecond
    let micro := (picos / million).truncate
    x.truncate = 0 ∧ micro = 0 ∧ (picos - ofInt micro * million).truncate = 0 := by
  intro picos micro
  have hzero : (ofInt 0).Exactly 0 := exactly_ofInt 0 (by norm_num)
  have hproduct : (ofInt 0 * million).Exactly 0 := by
    have hrounds := hzero.mul million_spec
    rw [zero_mul, ← Int.cast_zero] at hrounds
    exact_mod_cast hrounds.exactly_intCast (n := 0) (by norm_num)
  have hlow : x.truncate = 0 := x.truncate_of_abs_lt_one (hsmall.trans (by norm_num))
  have hrest : (x - ofInt x.truncate).Exactly x.value := by
    rw [hlow]
    exact Exactly.sub_zero hx hzero
  have hpicos := hrest.mul picosPerSecond_spec
  have hsize : |x.value * 1000000000000| < (2 : Rat) ^ (-60 : Int) := by
    rw [abs_mul, abs_of_pos (by norm_num : (0 : Rat) < 1000000000000)]
    norm_num at hsmall ⊢
    linarith
  have hnear := hpicos.near 0 (by norm_num) (hsize.le.trans (by norm_num))
  have hpicosLt : |picos.value| < 1 / 2 := by
    have herror := abs_le.mp hnear.2
    rw [abs_lt] at hsize ⊢
    norm_num at hsize herror ⊢
    constructor <;> linarith
  have hquotient := (exactly_of_isFinite picos hnear.1).div million_spec (by norm_num)
  have hquotientLt : |picos.value / 1000000| < 1 / 2 := by
    rw [abs_div, abs_of_pos (by norm_num : (0 : Rat) < 1000000), div_lt_iff₀ (by norm_num)]
    linarith
  have hmicro : micro = 0 := by
    refine truncate_of_abs_lt_one _ ?_
    have herror := abs_le.mp (hquotient.near 0 (by norm_num) (by linarith)).2
    rw [abs_lt] at hquotientLt ⊢
    norm_num at hquotientLt herror ⊢
    constructor <;> linarith
  refine ⟨hlow, hmicro, ?_⟩
  rw [hmicro]
  refine truncate_of_abs_lt_one _ ?_
  rw [(Exactly.sub_zero hnear.1 hproduct).2]
  linarith

theorem roundedPicos_zero : roundedPicos 0 = 0 := by
  rw [roundedPicos, zero_mul]
  exact signedValue_zero false

/-- Nothing is kept of a double next to zero and below it. -/
theorem keptSeconds_of_tiny (x : Binary64) (hsmall : |x.value| < (2 : Rat) ^ (-100 : Int))
    (hneg : x.value < 0) : x.keptSeconds = 0 := by
  have hdigit : ⌊x.value / 65536⌋ = -1 := by
    rw [abs_of_neg hneg] at hsmall
    rw [Int.floor_eq_iff, le_div_iff₀ (by norm_num), div_lt_iff₀ (by norm_num)]
    norm_num at hsmall ⊢
    constructor <;> linarith
  have hradix := lowRadix_spec
  have hround : round false (x.value - (-1 : Int) * 65536) = lowRadix := by
    refine (rounds_round false _).eq_of_near hradix.1 16 ?_ ?_
    · rw [hradix.2]
      norm_num
    · rw [hradix.2]
      push_cast
      rw [neg_one_mul, sub_neg_eq_add, add_sub_cancel_right]
      exact hsmall.trans (by norm_num)
  rw [keptSeconds, hdigit, hround, hradix.2]
  norm_num

end Binary64

open Binary64

/-- What the places of a double count: the seconds that are kept, and of the
    part below the second the picoseconds as they are rounded. -/
theorem Components.picoseconds_ofFloat? (x : Binary64) (c : Components)
    (hc : ofFloat? x = some c) :
    c.picoseconds = ⌊x.keptSeconds⌋ * 1000000000000 + ⌊roundedPicos (Int.fract x.keptSeconds)⌋ := by
  have hx := isFinite_of_ofFloat? hc
  rcases exists_highOf x hx with ⟨high, hfloor, hhigh⟩
  have hdigit := eq_floor_of_floor? _ high hfloor
  rw [ofFloat?, hfloor, Option.map_some, Option.some.injEq] at hc
  have hrounds := (exactly_of_isFinite x hx).sub hhigh.exactHigh.2
  rw [← hc, picoseconds]
  rcases floor_div_lowRadix x hx with hexact | ⟨hzero, hnear, hneg⟩
  · -- The high digit is exact, and what is below it is not negative.
    rw [← hdigit] at hexact
    rcases mem_above_digit x.value with ⟨hbelow, hlt⟩
    rw [← hexact] at hbelow hlt
    have hmost := hrounds.atMost 16 (by norm_num)
      (by rw [abs_of_nonneg hbelow]; exact hlt.le.trans (by norm_num))
    have hnonneg := hrounds.sameSide.1 hbelow
    have hle := (le_abs_self _).trans hmost.2
    have hkept : x.keptSeconds
        = ((high * 65536 : Int) : Rat) + (x - ofInt high * lowRadix).value := by
      rw [keptSeconds, ← hexact, ← hrounds.value_eq]
      push_cast
      rfl
    rcases low_spec _ hmost.1 hnonneg (hle.trans (by norm_num)) with ⟨hlow, hsecond⟩
    have hpicos := picos_spec _ hsecond.1 (by rw [hsecond.2]; exact Int.fract_nonneg _)
      (by rw [hsecond.2]; exact (Int.fract_lt_one _).le)
    rw [hsecond.2] at hpicos
    rw [hkept, Int.floor_intCast_add, Int.fract_intCast_add, ← hpicos, ← hlow, add_assoc]
  · -- Everything is lost of a double next to zero.
    have hsmall : |x.value| < (2 : Rat) ^ (-100 : Int) := by
      rw [abs_of_neg hneg]
      exact neg_lt.mp hnear
    rw [hdigit, hzero] at hrounds ⊢
    rw [Int.cast_zero, zero_mul, sub_zero] at hrounds
    have hrest := hrounds.exactly (exactly_of_isFinite x hx)
    rcases places_of_tiny _ hrest.1 (by rw [hrest.2]; exact hsmall) with ⟨hlow, hmicro, hpico⟩
    rw [keptSeconds_of_tiny x hsmall hneg, Int.fract_zero, roundedPicos_zero, Int.floor_zero]
    dsimp only
    rw [hpico, hmicro, hlow]
    rfl

/-! ## The two roundings -/

namespace Binary64

/-- All seconds are kept of a double that the high digit takes towards zero. -/
theorem keptSeconds_eq (x : Binary64) (hx : x.isFinite = true)
    (h : 0 ≤ x.value ∨ x.value ≤ -65536) : x.keptSeconds = x.value := by
  rcases mem_above_digit x.value with ⟨hnonneg, hlt⟩
  have hcast : (⌊x.value / 65536⌋ : Rat) * 65536 = ((⌊x.value / 65536⌋ * 65536 : Int) : Rat) := by
    push_cast
    rfl
  rw [keptSeconds]
  rw [hcast] at hnonneg hlt ⊢
  have hexact := (rounds_round false _).exactly_sub_intCast hx (by
    rw [abs_of_nonneg hnonneg]
    rcases h with hpos | hneg
    · have hfloor := Int.floor_nonneg.mpr (div_nonneg hpos (by norm_num : (0 : Rat) ≤ 65536))
      have hdigit : (0 : Rat) ≤ ((⌊x.value / 65536⌋ * 65536 : Int) : Rat) := by
        exact_mod_cast (by omega : 0 ≤ ⌊x.value / 65536⌋ * 65536)
      rw [abs_of_nonneg hpos]
      linarith
    · rw [abs_of_neg (by linarith)]
      linarith)
    (by rw [abs_of_nonneg hnonneg]; exact hlt.trans (by norm_num))
  rw [hexact.2]
  ring

/-- No more than four picoseconds are lost of any other, or won. -/
theorem abs_keptSeconds_sub_le (x : Binary64) :
    |x.keptSeconds - x.value| ≤ (2 : Rat) ^ (-38 : Int) := by
  rcases mem_above_digit x.value with ⟨hnonneg, hlt⟩
  have hnear := ((rounds_round false (x.value - ⌊x.value / 65536⌋ * 65536)).near 16 (by norm_num)
    (by rw [abs_of_nonneg hnonneg]; exact hlt.le.trans (by norm_num))).2
  have hsame : x.keptSeconds - x.value
      = (round false (x.value - ⌊x.value / 65536⌋ * 65536)).value
        - (x.value - ⌊x.value / 65536⌋ * 65536) := by
    rw [keptSeconds]
    ring
  rw [hsame]
  exact hnear

/-- Rounded picoseconds are those of the fraction, or one more. -/
theorem floor_roundedPicos (f : Rat) (hlow : 0 ≤ f) (hhigh : f < 1) :
    ⌊roundedPicos f⌋ = ⌊f * 1000000000000⌋ ∨ ⌊roundedPicos f⌋ = ⌊f * 1000000000000⌋ + 1 := by
  have hsize := abs_picos_le f hlow hhigh.le
  have hrounds := rounds_round false (f * 1000000000000)
  have hfinite := (hrounds.near 40 (by norm_num) hsize).1
  exact hrounds.floor_value hfinite (hsize.trans_lt (by norm_num))

/-- They are no more than half a step of the doubles above the fraction. -/
theorem roundedPicos_le (f : Rat) (hlow : 0 ≤ f) (hhigh : f < 1) :
    roundedPicos f ≤ f * 1000000000000 + (2 : Rat) ^ (-14 : Int) := by
  have hsize := abs_picos_le f hlow hhigh.le
  have herror := (abs_le.mp ((rounds_round false _).near 40 (by norm_num) hsize).2).2
  rw [roundedPicos]
  norm_num at herror ⊢
  linarith

/-- They are exact if the fraction has no more than twenty-five places. -/
theorem roundedPicos_eq (f : Rat) (hlow : 0 ≤ f) (hhigh : f < 1) (h : Grid (-25) f) :
    roundedPicos f = f * 1000000000000 := by
  have hgrid : Grid (-13) (f * 1000000000000) := by
    rcases h with ⟨n, rfl⟩
    refine ⟨n * 244140625, ?_⟩
    push_cast
    norm_num
    ring
  have hsize : |f * 1000000000000| < (2 : Rat) ^ ((-13 : Int) + 53) := by
    rw [abs_of_nonneg (by linarith)]
    norm_num
    linarith
  rcases exists_exactly_of_grid hgrid (by norm_num) (by norm_num) hsize with ⟨y, hy⟩
  exact hy.rounds_value.2

/-- Cutting off after the rounding finds the picoseconds of the seconds or one
    more, the latter only next to it. -/
theorem floor_picoseconds (s : Rat) :
    let count := ⌊s⌋ * 1000000000000 + ⌊roundedPicos (Int.fract s)⌋
    (count = ⌊s * 1000000000000⌋ ∨ count = ⌊s * 1000000000000⌋ + 1) ∧
      (count : Rat) ≤ s * 1000000000000 + (2 : Rat) ^ (-14 : Int) := by
  intro count
  have hnonneg := Int.fract_nonneg s
  have hlt := Int.fract_lt_one s
  have hsplit : s * 1000000000000
      = ((⌊s⌋ * 1000000000000 : Int) : Rat) + Int.fract s * 1000000000000 := by
    rw [Int.fract]
    push_cast
    ring
  rw [hsplit, Int.floor_intCast_add]
  refine ⟨?_, ?_⟩
  · rcases floor_roundedPicos _ hnonneg hlt with h | h
    · exact Or.inl (by rw [← h])
    · exact Or.inr (by rw [add_assoc, ← h])
  · have hle := (Int.floor_le _).trans (roundedPicos_le _ hnonneg hlt)
    rw [Int.cast_add, add_assoc]
    exact add_le_add_right hle _

end Binary64

/-- How far a timestamp is from the seconds it is made of. Its count is that of
    the seconds that are kept, with the part below the second rounded to
    picoseconds before it is cut off. From zero on, and up to the first high
    digit below it, that is the greatest count not above the seconds, or the
    next if it is hardly above them. From `2 ^ 27` on it is the greatest.
    Everywhere it is less than five picoseconds off. -/
theorem Timestamp.picoseconds_ofSeconds (range : HighRange) (x : Binary64) (t : Timestamp)
    (h : ofSeconds range (.float x) = .ok t) :
    let exact : Rat := x.value * 1000000000000
    t.picoseconds
        = ⌊x.keptSeconds⌋ * 1000000000000 + ⌊roundedPicos (Int.fract x.keptSeconds)⌋ ∧
      (0 ≤ x.value ∨ x.value ≤ -65536 →
        (t.picoseconds = ⌊exact⌋ ∨ t.picoseconds = ⌊exact⌋ + 1) ∧
          (t.picoseconds : Rat) ≤ exact + (2 : Rat) ^ (-14 : Int)) ∧
      ((2 : Rat) ^ 27 ≤ |x.value| → t.picoseconds = ⌊exact⌋) ∧
      exact - 1 - 1000000000000 * (2 : Rat) ^ (-38 : Int) < t.picoseconds ∧
      (t.picoseconds : Rat)
        ≤ exact + 1000000000000 * (2 : Rat) ^ (-38 : Int) + (2 : Rat) ^ (-14 : Int) := by
  intro exact
  rcases (ofSeconds_eq_ok_iff _ _ _).mp h with ⟨_, n, ⟨⟩, hd⟩
  rcases (Decoded.ofFloat_eq_success_iff _ _ _ _).mp hd with ⟨-, -, c, hc, rfl, -, -⟩
  have hx := Components.isFinite_of_ofFloat? hc
  have hcount := c.picoseconds_normalize.trans (Components.picoseconds_ofFloat? x c hc)
  rcases floor_picoseconds x.keptSeconds with ⟨hfloor, hle⟩
  rw [← hcount] at hfloor hle
  refine ⟨hcount, fun hkept => ?_, fun hlarge => ?_, ?_⟩
  · rw [keptSeconds_eq x hx hkept] at hfloor hle
    exact ⟨hfloor, hle⟩
  · -- No more than twenty-five places are left below the second.
    have hkept : x.keptSeconds = x.value := by
      refine keptSeconds_eq x hx ((le_abs.mp hlarge).imp (fun h => ?_) fun h => ?_)
      · exact le_trans (by norm_num) h
      · norm_num at h
        linarith
    have hgrid := (x.grid_of_two_pow_le 27 hlarge).fract (by norm_num)
    rw [hcount, hkept, roundedPicos_eq _ (Int.fract_nonneg _) (Int.fract_lt_one _) hgrid,
      ← Int.floor_intCast_add]
    congr 1
    rw [Int.fract]
    push_cast
    ring
  · have hkept := abs_le.mp x.abs_keptSeconds_sub_le
    have hlt := Int.lt_floor_add_one (x.keptSeconds * 1000000000000)
    have hmin : ((⌊x.keptSeconds * 1000000000000⌋ : Int) : Rat) ≤ c.normalize.picoseconds := by
      exact_mod_cast (by omega :
        ⌊x.keptSeconds * 1000000000000⌋ ≤ c.normalize.picoseconds)
    constructor <;> linarith

/-- A number of seconds in the usual window becomes the timestamp of its
    places. -/
theorem Timestamp.ofSeconds_fixnum (x : Binary64) (c : Components) (t : Timestamp)
    (hwithin : x.within (ofRank true HighRange.fixnum.windowRank)
      (ofRank false HighRange.fixnum.windowRank) = true)
    (hc : Components.ofFloat? x = some c) (ht : c.normalize = t)
    (hmem : t.high ∈ HighRange.fixnum) : ofSeconds .fixnum (.float x) = .ok t := by
  rw [ofSeconds_eq_ok_iff]
  refine ⟨_, 4, rfl, ?_⟩
  rw [Decoded.ofFloat_eq_success_iff]
  exact ⟨HighRange.near_of_fixnumMin_le _ le_rfl, hwithin, c, hc, ht, hmem, rfl⟩

/-- Four years and a quarter before the epoch, not in whole seconds. -/
theorem Timestamp.picoseconds_ofSeconds_before_epoch :
    let x := ofBits 0xc1a000000099999a
    let t : Timestamp := ⟨-2049, 65535, 699999, 988079, by decide, by decide, by decide⟩
    ofSeconds .fixnum (.float x) = .ok t ∧ (2 : Rat) ^ 27 ≤ |x.value| ∧ x.value ≤ -65536 ∧
      t.picoseconds = ⌊x.value * 1000000000000⌋ ∧
      (t.picoseconds : Rat) ≤ x.value * 1000000000000 + (2 : Rat) ^ (-14 : Int) := by
  intro x t
  have ht : ofSeconds .fixnum (.float x) = .ok t :=
    ofSeconds_fixnum x ⟨-2049, 65535, 699999, 988079⟩ t (by decide +kernel) (by decide +kernel)
      rfl (by decide)
  have hlarge : (2 : Rat) ^ 27 ≤ |x.value| := by decide +kernel
  have hneg : x.value ≤ -65536 := by decide +kernel
  rcases picoseconds_ofSeconds .fixnum x t ht with ⟨-, hkept, hexact, -⟩
  exact ⟨ht, hlarge, hneg, hexact hlarge, (hkept (Or.inr hneg)).2⟩

/-- Three tenths of a second after the epoch become a picosecond more than the
    greatest count not above them, and three tenths before it three less. -/
theorem Timestamp.ofSeconds_off_by_picoseconds :
    let after := ofBits 0x3fd3333333333333
    let before := ofBits 0xbfd3333333333333
    ofSeconds .fixnum (.float after)
        = .ok ⟨0, 0, 300000, 0, by decide, by decide, by decide⟩ ∧
      ⌊after.value * 1000000000000⌋ = 299999999999 ∧
      ofSeconds .fixnum (.float before)
        = .ok ⟨-1, 65535, 699999, 999997, by decide, by decide, by decide⟩ ∧
      ⌊before.value * 1000000000000⌋ = -300000000000 ∧
      ¬ ∀ (range : HighRange) (x : Binary64) (t : Timestamp),
        ofSeconds range (.float x) = .ok t → t.picoseconds = ⌊x.value * 1000000000000⌋ := by
  intro after before
  have hafter : ofSeconds .fixnum (.float after)
      = .ok ⟨0, 0, 300000, 0, by decide, by decide, by decide⟩ :=
    ofSeconds_fixnum after ⟨0, 0, 300000, 0⟩ _ (by decide +kernel) (by decide +kernel) rfl
      (by decide)
  have hbefore : ofSeconds .fixnum (.float before)
      = .ok ⟨-1, 65535, 699999, 999997, by decide, by decide, by decide⟩ :=
    ofSeconds_fixnum before ⟨-1, 65535, 699999, 999997⟩ _ (by decide +kernel) (by decide +kernel)
      rfl (by decide)
  have hfloor : ⌊after.value * 1000000000000⌋ = 299999999999 := by decide +kernel
  refine ⟨hafter, hfloor, hbefore, by decide +kernel, fun hfloors => ?_⟩
  have hcount := hfloors .fixnum after _ hafter
  rw [hfloor] at hcount
  exact absurd hcount (by decide)

end PicoTime
