import PicoTime.Decoded.OfDatum
import PicoTime.Timestamp.Places
import PicoTime.Timestamp.Sum

/-!
# Sums and Differences of Data

Both data are decoded, the left one before the right, and only then is
anything computed. So a clock that both of them ask is asked for the left one
first, and a left one that is no time is reported before the right one is
looked at. The result is written with as many places as the longer one has.

## Main definitions

* `Datum.combine`: An operation on the timestamps of two data.
* `Datum.add`, `Datum.subtract`: Sum and difference.
-/

namespace PicoTime

namespace Datum

/-- An operation on the timestamps of two data, written with as many places
    as the longer of them has. -/
def combine (op : HighRange → Timestamp → Timestamp → Except Fault Timestamp)
    (range : HighRange) (a b : Datum) : Timed (List Int) := do
  let (s, m) ← a.resolve range
  let (t, n) ← b.resolve range
  let result ← op range s t
  orFault (result.encode (max m n))

/-- The sum of two data. -/
def add (range : HighRange) (a b : Datum) : Timed (List Int) :=
  combine Timestamp.addWithin range a b

/-- The difference of two data. -/
def subtract (range : HighRange) (a b : Datum) : Timed (List Int) :=
  combine Timestamp.subWithin range a b

end Datum

end PicoTime
