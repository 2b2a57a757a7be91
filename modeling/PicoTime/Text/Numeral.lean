/-!
# Numerals of Limited Length

An integer may have any size, and its decimal numeral may not. A numeral is
read into an integer, and an integer is written as one, only up to a number of
digits; what is longer is refused in both directions. Signs are not counted,
leading zeros are, and doubles are not concerned.

Messages are texts like any other, so an integer that cannot be written cannot
be named in a message either. Whoever wanted to report it then stops with that
instead.

## Main definitions

* `numeralLimit`: The number of digits that a numeral may have.
* `hasNumeral`: Whether an integer can be written.
-/

namespace PicoTime

/-- The most digits that the numeral of an integer may have. -/
def numeralLimit : Nat := 4300

/-- Whether an integer can be written, with no more digits than a numeral may
    have. -/
def hasNumeral (n : Int) : Bool :=
  (Nat.toDigits 10 n.natAbs).length ≤ numeralLimit

end PicoTime
