import PicoTime.Binary64.Basic
import PicoTime.Magnitude

/-!
# Rounding to Nearest, Ties to Even

One function takes an exact rational to the double nearest to it, and every
arithmetic operation is its exact result put through that function.

`rankBelow` finds the greatest rank whose magnitude does not exceed a
number: around the number the doubles are the multiples of one power of two,
so the quotient's floor counts them. The number then lies between that rank
and the next, and `nearestRank` picks the closer end, of two equally close
ones the even rank. An even rank is an even significand, since a binade holds
an even number of ranks.

Nothing treats overflow apart: the rank past the largest finite one stands
for `2 ^ 1024`, and a number that rounds to it or beyond becomes an infinity.

## Main definitions

* `rankBelow`: The greatest rank not above a magnitude.
* `nearestRank`: The rank nearest to a magnitude.
* `Binary64.round`: The double nearest to a rational.
* `Binary64.ofInt?`: The double nearest to an integer, if one is finite.
* `Binary64.quotient?`: The double nearest to a quotient of integers.
-/

namespace PicoTime

/-- The greatest rank whose value is at most `x`, for `0 ≤ x`. The doubles
    around `x` are spaced by `2 ^ e`, and `e + 1074` binades end below. -/
def rankBelow (x : Rat) : Nat :=
  let e := max (-1074) (floorLog2 x - 52)
  -- From the second binade on the quotient is at least a binade itself, which
  -- is the binade that the count before it leaves out.
  (e + 1074).toNat * binadeSize + (x / (2 : Rat) ^ e).floor.toNat

/-- The rank whose value is nearest to `x`, for `0 ≤ x`; the even one of two
    that are equally near. -/
def nearestRank (x : Rat) : Nat :=
  let rank := rankBelow x
  let down := x - rankValue rank
  let up := rankValue (rank + 1) - x
  if down < up then rank
  else if up < down then rank + 1
  else if rank % 2 = 0 then rank
  else rank + 1

namespace Binary64

/-- The double at a rank, infinite from the end of the finite ranks on. -/
def ofRank (negative : Bool) (rank : Nat) : Binary64 :=
  if h : rank < finiteCount then .finite negative ⟨rank, h⟩
  else .infinite negative

/-- The double nearest to `x`. A zero has no sign of its own and takes the
    one given. -/
def round (zeroSign : Bool) (x : Rat) : Binary64 :=
  if x = 0 then zero zeroSign
  else if x < 0 then ofRank true (nearestRank (-x))
  else ofRank false (nearestRank x)

/-- Whether a double is a number other than an infinity. -/
def isFinite : Binary64 → Bool
  | .finite _ _ => true
  | _ => false

/-- The double nearest to an integer, or `none` if that is an infinity. -/
def ofInt? (n : Int) : Option Binary64 :=
  let x := round false n
  if x.isFinite then some x else none

/-- The double nearest to `n / d`, or `none` if that is an infinity. -/
def quotient? (n : Int) (d : Nat) : Option Binary64 :=
  let x := round false ((n : Rat) / (d : Rat))
  if x.isFinite then some x else none

end Binary64

end PicoTime
