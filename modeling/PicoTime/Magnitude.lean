/-!
# Orders of Magnitude

The integer logarithm of a positive rational: the greatest power of the base
that does not exceed it. Rounding needs it in base two, to find the spacing
of the doubles around a number, and printing needs it in base ten, to find
the place of the leading digit.

Both come from one observation. If `p` and `q` are the logarithms of the
numerator and the denominator, the quotient lies strictly between
`base ^ (p - q - 1)` and `base ^ (p - q + 1)`, so one comparison with
`base ^ (p - q)` decides.

## Main definitions

* `floorLog2`: The binary order of magnitude.
* `floorLog10`: The decimal order of magnitude.
-/

namespace PicoTime

/-- The order of magnitude of a positive rational, given the integer
    logarithm that belongs to the base. -/
def floorLogBy (base : Rat) (log : Nat → Nat) (x : Rat) : Int :=
  let estimate : Int := log x.num.toNat - log x.den
  if base ^ estimate ≤ x then estimate else estimate - 1

/-- The greatest `e` with `2 ^ e ≤ x`, for a positive `x`. -/
def floorLog2 (x : Rat) : Int :=
  floorLogBy 2 Nat.log2 x

/-- The greatest `e` with `10 ^ e ≤ n`, for a positive `n`. -/
def decimalLog (n : Nat) : Nat :=
  (Nat.toDigits 10 n).length - 1

/-- The greatest `e` with `10 ^ e ≤ x`, for a positive `x`. -/
def floorLog10 (x : Rat) : Int :=
  floorLogBy 10 decimalLog x

end PicoTime
