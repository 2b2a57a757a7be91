/-!
# Binary64 Numbers

The double-precision numbers of IEEE 754, as data rather than as machine
words. A finite magnitude is named by its *rank*: its position among all
finite magnitudes in ascending order, with zero at rank zero. That is the
same natural number as the word's bits below the sign, so moving between the
two costs nothing, and the neighbours of a number are the ranks next to its
own. Rounding and the search for short decimals are then both questions about
consecutive ranks.

Ranks come in binades of `binadeSize` each. In the first binade the numbers
are spaced as finely as in the second; from there on the spacing doubles from
one binade to the next. `rankValue` is that rule as one formula, and it does
not stop at the largest finite number: the rank one past it has the value
`2 ^ 1024`, which is where rounding starts to answer infinity.

The sign of a NaN is kept, since a printed NaN shows it. Its payload is not.

## Main definitions

* `Binary64`: A double: a NaN, an infinity, or a signed finite rank.
* `rankValue`: The magnitude a rank stands for.
* `Binary64.value`: The rational a finite double denotes.
* `Binary64.ofBits`, `Binary64.toBits`: The 64-bit interchange format.

## Theorems

* `Binary64.ofBits_toBits`: Reading the bits of a double gives it back.
-/

namespace PicoTime

/-- The number of ranks in one binade, two to the 52nd. -/
def binadeSize : Nat := 4503599627370496

/-- The number of finite magnitudes, 2047 binades. -/
def finiteCount : Nat := 9218868437227405312

/-- A double-precision number. Finite magnitudes are named by their rank in
    ascending order. -/
inductive Binary64 where
  | nan (negative : Bool)
  | infinite (negative : Bool)
  | finite (negative : Bool) (rank : Fin finiteCount)
  deriving DecidableEq

/-- The magnitude at a rank. The first binade shares the spacing of the
    second; every later one is spaced twice as widely as the one before. -/
def rankValue (rank : Nat) : Rat :=
  let binade := rank / binadeSize
  let place := rank % binadeSize
  if binade = 0 then
    (place : Rat) * (2 : Rat) ^ (-1074 : Int)
  else
    ((binadeSize + place : Nat) : Rat) * (2 : Rat) ^ ((binade : Int) - 1075)

namespace Binary64

/-- Zero with a sign. -/
def zero (negative : Bool) : Binary64 :=
  .finite negative ⟨0, by decide⟩

/-- The rational with the given sign and the magnitude at a rank. -/
def signedValue (negative : Bool) (rank : Nat) : Rat :=
  if negative then -rankValue rank else rankValue rank

/-- The rational a finite double denotes. The other doubles denote none, and
    zero stands in for it. -/
def value : Binary64 → Rat
  | .finite negative rank => signedValue negative rank
  | _ => 0

/-- The sign bit as a number, two to the 63rd. -/
def signWeight : Nat := 9223372036854775808

/-- Half a binade above infinity: the rank bits of a NaN without payload. -/
def quietRank : Nat := 9221120237041090560

/-- The double with the given interchange bits. -/
def ofBits (bits : UInt64) : Binary64 :=
  let negative := decide (signWeight ≤ bits.toNat)
  let rank := bits.toNat % signWeight
  if h : rank < finiteCount then .finite negative ⟨rank, h⟩
  else if rank = finiteCount then .infinite negative
  else .nan negative

/-- The bits below the sign. -/
def rankBits : Binary64 → Nat
  | .nan _ => quietRank
  | .infinite _ => finiteCount
  | .finite _ rank => rank

/-- Whether the sign bit is set, for a NaN as well. -/
def isNegative : Binary64 → Bool
  | .nan negative => negative
  | .infinite negative => negative
  | .finite negative _ => negative

/-- The interchange bits of a double. -/
def toBits (x : Binary64) : UInt64 :=
  UInt64.ofNat (x.rankBits + if x.isNegative then signWeight else 0)

theorem rankBits_lt (x : Binary64) : x.rankBits < signWeight := by
  match x with
  | .nan _ => exact (by decide : quietRank < signWeight)
  | .infinite _ => exact (by decide : finiteCount < signWeight)
  | .finite _ rank => exact Nat.lt_trans rank.isLt (by decide)

/-- The bits of a double name that double. -/
theorem ofBits_toBits (x : Binary64) : ofBits x.toBits = x := by
  have hlt := x.rankBits_lt
  have hbits : x.toBits.toNat
      = x.rankBits + if x.isNegative then signWeight else 0 := by
    unfold toBits
    rw [UInt64.toNat_ofNat']
    apply Nat.mod_eq_of_lt
    unfold signWeight at *
    split <;> omega
  have hrank : x.toBits.toNat % signWeight = x.rankBits := by
    rw [hbits]
    unfold signWeight at *
    split <;> omega
  have hneg : decide (signWeight ≤ x.toBits.toNat) = x.isNegative := by
    rw [hbits]
    unfold signWeight at *
    cases x.isNegative <;> simp
    omega
  unfold ofBits
  simp only [hrank, hneg]
  match x with
  | .nan _ => rfl
  | .infinite _ => rfl
  | .finite _ rank => simp [rankBits, isNegative]

end Binary64

end PicoTime
