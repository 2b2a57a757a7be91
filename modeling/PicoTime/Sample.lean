import PicoTime.Clock

/-!
# From Samples to Places

Two ways lead from seconds and nanoseconds to the four places.

A timestamp is what they add up to: the nanoseconds may be anything, and are
carried into the seconds.

A split treats the two numbers separately. Whole seconds fall into a high
part and their low sixteen bits. The nanoseconds are split toward zero and
never carry, so a slightly negative count gives slightly negative places
below the second, and all places are shown as they are.

## Main definitions

* `Timestamp.ofComponents`, `Timestamp.ofSample`: What components and
  samples add up to, within a range.
* `Timestamp.now`: The timestamp of the current time.
* `highSeconds`, `lowSeconds`: The two parts of whole seconds.
* `Sample.split`: The places of a sample, without carries.
* `splitNow`: The places of the current time.
-/

namespace PicoTime

namespace Timestamp

/-- The timestamp that components add up to, if its high digit is in the
    range. -/
def ofComponents (range : HighRange) (c : Components) :
    Except Fault Timestamp :=
  let t := c.normalize
  if t.high ∈ range then .ok t
  else .error (TimeError.outOfRange (.highOutside t.high range)).worded

/-- The timestamp that seconds and nanoseconds add up to. -/
def ofSample (range : HighRange) (s : Sample) : Except Fault Timestamp :=
  ofComponents range (Components.ofSample s)

/-- The timestamp of the current time. -/
def now (range : HighRange) : Timed Timestamp := do
  ofSample range (← sample)

end Timestamp

/-- Everything of whole seconds but the low sixteen bits. -/
def highSeconds (range : HighRange) (seconds : Int) : Except Fault Int :=
  let high := seconds / 65536
  if high ∈ range then .ok high
  else .error (TimeError.overflow (.secondsOutside seconds high range)).worded

/-- The low sixteen bits of whole seconds. -/
def lowSeconds (seconds : Int) : Int :=
  seconds % 65536

/-- The four places of a sample. The nanoseconds are split toward zero. -/
def Sample.split (range : HighRange) (s : Sample) :
    Except Fault Components := do
  let high ← highSeconds range s.seconds
  return {
    high := high
    low := lowSeconds s.seconds
    micro := s.nanoseconds.tdiv 1000
    pico := s.nanoseconds.tmod 1000 * 1000 }

/-- The four places of the current time. -/
def splitNow (range : HighRange) : Timed Components := do
  Sample.split range (← sample)

end PicoTime
