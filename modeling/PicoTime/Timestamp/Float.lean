import PicoTime.Binary64.Arithmetic
import PicoTime.Timestamp

/-!
# Timestamps and Seconds in Binary64

Both directions of the conversion are chains of double-precision operations,
each rounded on its own, so the order of the operations is part of what they
compute.

Toward the double, the fraction of a second is put together first and the
high digit added last, so that the small parts are rounded among themselves
before they meet the large one.

Away from the double, the high digit is the floor of a division by 65536 and
what remains is taken apart by truncation, place after place. Rounding can
leave a place one unit outside its range in either direction, which is why
the result is only components, to be normalised.

## Main definitions

* `Timestamp.toFloat?`: A timestamp as seconds.
* `Components.ofFloat?`: The places of a number of seconds.
-/

namespace PicoTime

namespace Binary64

/-- The double nearest to an integer. -/
def ofInt (n : Int) : Binary64 :=
  round false n

/-- The radix of the low seconds. -/
def lowRadix : Binary64 := ofInt 65536

/-- A million, the radix of micro- and picoseconds. -/
def million : Binary64 := ofInt 1000000

/-- The number of picoseconds in a second. -/
def picosPerSecond : Binary64 := ofInt 1000000000000

end Binary64

/-- A timestamp as seconds, unless its high digit is beyond all doubles. -/
def Timestamp.toFloat? (t : Timestamp) : Option Binary64 :=
  let fraction :=
    (Binary64.ofInt t.micro * Binary64.million + Binary64.ofInt t.pico)
      / Binary64.picosPerSecond
  let below := fraction + Binary64.ofInt t.low
  (Binary64.ofInt? t.high).map fun high => below + high * Binary64.lowRadix

/-- The places of a number of seconds, unless it is infinite. -/
def Components.ofFloat? (x : Binary64) : Option Components :=
  (x / Binary64.lowRadix).floor?.map fun high =>
    -- What lies below the high digit, in seconds.
    let rest := x - Binary64.ofInt high * Binary64.lowRadix
    let low := rest.truncate
    -- What lies below the second, in picoseconds.
    let picos := (rest - Binary64.ofInt low) * Binary64.picosPerSecond
    let micro := (picos / Binary64.million).truncate
    let pico := (picos - Binary64.ofInt micro * Binary64.million).truncate
    ⟨high, low, micro, pico⟩

end PicoTime
