import PicoTime.Decoded.OfDatum

/-!
# Times as Seconds in Binary64

The lossy side of the library. A datum becomes a double by way of its
timestamp, except for two shapes that never had to be one: a double is
answered as it is, whatever it is, and the current time is the sum of its
seconds and of a quotient for its nanoseconds, unchecked by any range.

The other way only numbers lead: doubles, integers and, as zero and one, truth
values.

## Main definitions

* `Timestamp.inSeconds`: A timestamp as a double.
* `Number`: A number of seconds.
* `Timestamp.ofSeconds`: A number as a timestamp.
* `Form.inSeconds`, `Datum.inSeconds`: Any form and any datum as a double.
-/

namespace PicoTime

/-- A timestamp as seconds. -/
def Timestamp.inSeconds (t : Timestamp) : Except ConversionError Binary64 :=
  match t.toFloat? with
  | some x => .ok x
  | none => .error .integerTooLarge

/-- A number of seconds. -/
inductive Number where
  | float (value : Binary64)
  | int (value : Int)
  | bool (value : Bool)

/-- A number as a double. A truth value counts as zero or one. -/
def Number.toFloat : Number → Except ConversionError Binary64
  | .float x => .ok x
  | .int n =>
    match Binary64.ofInt? n with
    | some x => .ok x
    | none => .error .integerTooLarge
  | .bool value => .ok (.ofInt (if value then 1 else 0))

/-- The timestamp of a number of seconds. -/
def Timestamp.ofSeconds (range : HighRange) (number : Number) :
    Except Fault Timestamp := do
  let x ← orFault number.toFloat
  let decoded ← Decoded.ofFloat range x
  let (t, _) ← orFault decoded.toExcept
  return t

/-- A sample as seconds. The quotient is formed before the seconds are
    converted. -/
def Sample.inSeconds (now : Sample) : Except ConversionError Binary64 :=
  match Binary64.quotient? now.nanoseconds 1000000000 with
  | none => .error .quotientTooLarge
  | some fraction =>
    match Binary64.ofInt? now.seconds with
    | none => .error .integerTooLarge
    | some whole => .ok (whole + fraction)

/-- A form as seconds. -/
def Form.inSeconds (range : HighRange) : Form → Timed Binary64
  | .now => do
    let now ← sample
    orFault now.inSeconds
  | .float x => return x
  | form => do
    let decoded ← form.decode range
    let (t, _) ← orFault decoded.toExcept
    orFault t.inSeconds

/-- A datum as seconds. -/
def Datum.inSeconds (range : HighRange) (spec : Datum) : Timed Binary64 :=
  match spec.form? with
  | some form => form.inSeconds range
  | none => throw (TimeError.invalid (.notATime spec)).worded

end PicoTime
