import PicoTime.Fault
import PicoTime.Timestamp.Float

/-!
# The Window of Doubles

The doubles that may become times, for a range of the high digit. The window
is half-open and lies evenly around zero, from the number of seconds at which
the high digit takes its least value. It is computed in double precision, so
a lower bound beyond all doubles has no window, and one just within them has
an infinite window.

## Main definitions

* `HighRange.window`: The ends of the window.
* `Binary64.within`: Whether a double lies in a half-open window.
-/

namespace PicoTime

/-- The window of doubles that may become times, closed below and open
    above. -/
def HighRange.window (range : HighRange) :
    Except ConversionError (Binary64 × Binary64) :=
  match Binary64.ofInt? range.min with
  | some least =>
    let lower := least * Binary64.lowRadix
    .ok (lower, -lower)
  | none => .error .integerTooLarge

/-- Whether a double lies in the window that is closed below and open above.
    A NaN lies in none. -/
def Binary64.within (x lower upper : Binary64) : Bool :=
  lower.le x && x.lt upper

end PicoTime
