import PicoTime.Clock
import PicoTime.Decoded
import PicoTime.Form
import PicoTime.HighRange.Window

/-!
# Decoding Data

From a datum to a timestamp. A datum is first brought into one of the forms,
and the form is then decoded: the current time is sampled, a double must lie
in the window of the range and is taken apart, and the places of a list must
be integers and are normalised. At the end of each way the high digit is
checked against the range.

Bad data do not stop a decoding, they make it a failure. It stops only where
the range's window cannot be computed, where an infinity gets through a window
that is itself infinite, or where the failure has an integer to name that
cannot be written.

## Main definitions

* `Decoded.ofFloat`: Seconds in double precision.
* `Decoded.ofPlaces`: The four places.
* `Form.decode`: Any form.
* `Datum.decode`: Any datum.
* `Datum.resolve`: Any datum, with a failure raised as an error.
-/

namespace PicoTime

/-- The timestamp of a number of seconds, of length four. -/
def Decoded.ofFloat (range : HighRange) (x : Binary64) :
    Except Fault Decoded := do
  let (lower, upper) ← orFault range.window
  if x.within lower upper then
    match Components.ofFloat? x with
    | some c => (Decoded.checked range c.normalize 4).worded
    -- Only an infinite window lets an infinity this far.
    | none => throw (.conversion .infinityNotInteger)
  else
    -- Doubles can always be shown.
    return .failure .outOfRange (.floatOutside x lower upper) 4

/-- The timestamp of four places, of which the low seconds are known to be an
    integer. A failure is not put in words here. -/
def Decoded.ofPlaces (range : HighRange) (high : Datum) (low : Int)
    (micro pico : Datum) (length : Int) : Decoded :=
  match high.int?, micro.int?, pico.int? with
  | some h, some m, some p =>
    .checked range (Components.normalize ⟨h, low, m, p⟩) length
  | _, _, _ => .mismatch (.notIntegers high micro pico)

/-- The timestamp of a form. -/
def Form.decode (range : HighRange) : Form → Timed Decoded
  | .now => do
    let now ← sample
    (Decoded.checked range (Components.ofSample now).normalize 4).worded
  | .float x => Decoded.ofFloat range x
  | .components high low micro pico length =>
    (Decoded.ofPlaces range high low micro pico length).worded

/-- The timestamp of a datum. -/
def Datum.decode (range : HighRange) (spec : Datum) : Timed Decoded :=
  match spec.form? with
  | some form => form.decode range
  | none => (Decoded.mismatch (.notATime spec)).worded

/-- The timestamp of a datum and its length. A failure stops. -/
def Datum.resolve (range : HighRange) (spec : Datum) :
    Timed (Timestamp × Int) := do
  let decoded ← spec.decode range
  orFault decoded.toExcept

end PicoTime
