import PicoTime.Binary64.Rounding

/-!
# Decimal Numerals

A signed whole number of units of a power of ten, with the three things the
library does with one: read it as a double, find the shortest one that reads
as a given double, and lay it out as text.

`Decimal.shortest` looks through the grids of one, two, … seventeen
significant digits. On each grid only the two points around the number can be
the nearest ones that read back, so it tests those two and stops at the first
grid with a hit, taking the nearer of two hits and the even digit of two
equally near. A number written out in full stands behind the search, so that
what is found reads back whatever the search did.

The layout is positional while the leading digit stands between the fourth
decimal place and the sixteenth digit before the point, and in scientific
notation with a signed exponent of two digits or more beyond that. A whole
number keeps a zero after the point, so that the text is never an integer's.

## Main definitions

* `Decimal`: A decimal numeral.
* `Binary64.ofDecimal`: The double a decimal is nearest to.
* `Decimal.shortest`: The shortest decimal that reads as a finite double.
* `Decimal.render`: The text of a decimal.
-/

namespace PicoTime

/-- A number of units of a power of ten. -/
structure Decimal where
  negative : Bool
  digits : Nat
  exponent : Int
  deriving DecidableEq

namespace Decimal

/-- The rational a decimal denotes, without its sign. -/
def magnitude (d : Decimal) : Rat :=
  (d.digits : Rat) * (10 : Rat) ^ d.exponent

end Decimal

namespace Binary64

/-- The double nearest to a decimal. Far outside the range of doubles the
    answer does not depend on the digits, and no power of ten is formed. -/
def ofDecimal (d : Decimal) : Binary64 :=
  if d.digits = 0 then zero d.negative
  -- At least one unit of more than `10 ^ 400`.
  else if 400 < d.exponent then .infinite d.negative
  -- Fewer than `2 * 10 ^ log2` units, so less than `10 ^ (-1400)` in all.
  else if d.exponent + (d.digits.log2 : Int) < -1400 then zero d.negative
  else ofRank d.negative (nearestRank d.magnitude)

end Binary64

namespace Decimal

/-- The significand to print at a rank when the last digit counts units of
    `10 ^ place`, if a neighbour of the number on that grid reads back. -/
def onGrid? (rank : Nat) (place : Int) : Option Nat :=
  let unit := (10 : Rat) ^ place
  let x := rankValue rank
  let below := (x / unit).floor.toNat
  let reads (m : Nat) : Bool := nearestRank (m * unit) = rank
  match reads below, reads (below + 1) with
  | true, true =>
    let down := x - below * unit
    let up := (below + 1 : Nat) * unit - x
    if down < up then some below
    else if up < down then some (below + 1)
    else if below % 2 = 0 then some below
    else some (below + 1)
  | true, false => some below
  | false, true => some (below + 1)
  | false, false => none

/-- All digits of the number at a rank, which never reach below the 1074th
    place. -/
def inFull (negative : Bool) (rank : Nat) : Decimal where
  negative := negative
  digits := (rankValue rank * (10 : Rat) ^ (1074 : Int)).floor.toNat
  exponent := -1074

/-- The shortest decimal that reads as the double at a rank. -/
def shortest (negative : Bool) (rank : Nat) : Decimal :=
  if rank = 0 then ⟨negative, 0, 0⟩
  else
    let lead := floorLog10 (rankValue rank)
    let found := (List.range 17).findSome? fun (more : Nat) =>
      (onGrid? rank (lead - more)).map fun m =>
        Decimal.mk negative m (lead - more)
    found.getD (inFull negative rank)

/-- The characters of a number without its trailing zeros. -/
def significantDigits (n : Nat) : List Char :=
  ((Nat.toDigits 10 n).reverse.dropWhile (· = '0')).reverse

/-- A run of zeros. -/
def zeros (n : Nat) : List Char :=
  List.replicate n '0'

/-- The exponent of scientific notation: a sign and at least two digits. -/
def renderExponent (e : Int) : List Char :=
  let digits := Nat.toDigits 10 e.natAbs
  (if e < 0 then '-' else '+') :: (zeros (2 - digits.length) ++ digits)

/-- Digits with the point after the first `whole` of them. A side that would
    be empty gets a zero. -/
def renderPositional (digits : List Char) (whole : Int) : List Char :=
  if whole ≤ 0 then
    '0' :: '.' :: (zeros (-whole).toNat ++ digits)
  else
    let n := whole.toNat
    let fraction := digits.drop n
    digits.take n ++ zeros (n - digits.length) ++
      '.' :: (if fraction.isEmpty then ['0'] else fraction)

/-- Digits with the point after the first, and the exponent of ten. -/
def renderScientific (digits : List Char) (e : Int) : List Char :=
  let fraction := digits.drop 1
  digits.take 1 ++
    (if fraction.isEmpty then [] else '.' :: fraction) ++
    'e' :: renderExponent e

/-- The text of a decimal. -/
def render (d : Decimal) : List Char :=
  let sign := if d.negative then ['-'] else []
  if d.digits = 0 then sign ++ ['0', '.', '0']
  else
    let lead := (decimalLog d.digits : Int) + d.exponent
    let digits := significantDigits d.digits
    sign ++
      if -4 ≤ lead ∧ lead < 16 then renderPositional digits (lead + 1)
      else renderScientific digits lead

end Decimal

end PicoTime
