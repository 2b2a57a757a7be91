import PicoTime.Datum.Parse
import PicoTime.Datum.Print
import PicoTime.Datum.Seconds
import PicoTime.Datum.Sum
import PicoTime.Sample

/-!
# Sessions

A session keeps one running datum and one clock, and goes through steps that
each make a new datum of it. A step that stops with a fault leaves the datum
as it was, but the samples it took stay taken.

Next to it stand the one-line calculations: operands are read from text, and
the result is printed.

## Main definitions

* `Step`, `Step.apply`: One step, and what it makes of a datum.
* `runSession`: What each of some steps results in.
* `Calculation`, `calculate`: Arithmetic from text to text.
-/

namespace PicoTime

/-- One step of a session. -/
inductive Step where
  /-- Add a datum. -/
  | add (operand : Datum)
  /-- Subtract a datum. -/
  | subtract (operand : Datum)
  /-- Subtract from a datum. -/
  | subtractFrom (operand : Datum)
  /-- Convert to seconds. -/
  | toSeconds
  /-- Encode with a number of places. -/
  | cut (length : Int)
  /-- Print and read again. -/
  | reread
  /-- Reduce to seconds and nanoseconds. -/
  | reduce
  /-- Put a datum in place of the running one. -/
  | replace (datum : Datum)

/-- What a step makes of a datum. -/
def Step.apply (range : HighRange) (running : Datum) : Step → Timed Datum
  | .add operand => do
    return .ofInts (← Datum.add range running operand)
  | .subtract operand => do
    return .ofInts (← Datum.subtract range running operand)
  | .subtractFrom operand => do
    return .ofInts (← Datum.subtract range operand running)
  | .toSeconds => do
    return .float (← running.inSeconds range)
  | .cut length => do
    let (t, _) ← running.resolve range
    return .ofInts (← orFault (t.encode length))
  | .reread => do
    let text ← running.toText
    Datum.parse text
  | .reduce => do
    let (t, _) ← running.resolve range
    let c ← t.toSample.split range
    return .ofInts c.toList
  | .replace datum => return datum

/-- What each of some steps results in, from a running datum and a clock. A
    step may itself be unusable, and then it is skipped with its fault. -/
def runSession (range : HighRange) :
    List (Except Fault Step) → Datum → Clock → List (Except Fault Datum)
  | [], _, _ => []
  -- The clock is not asked for a step that cannot be taken.
  | .error fault :: steps, running, clock =>
    .error fault :: runSession range steps running clock
  | .ok step :: steps, running, clock =>
    match (step.apply range running).run.run clock with
    | (.ok next, later) => .ok next :: runSession range steps next later
    | (.error fault, later) =>
      .error fault :: runSession range steps running later

/-- A calculation from text to text. -/
inductive Calculation where
  | add (a b : String)
  | subtract (a b : String)
  | toSeconds (a : String)

/-- The printed result of a calculation. All operands are read before it
    begins. -/
def calculate (range : HighRange) : Calculation → Timed String
  | .add a b => do
    let x ← Datum.parse a
    let y ← Datum.parse b
    (Datum.ofInts (← Datum.add range x y)).toText
  | .subtract a b => do
    let x ← Datum.parse a
    let y ← Datum.parse b
    (Datum.ofInts (← Datum.subtract range x y)).toText
  | .toSeconds a => do
    let x ← Datum.parse a
    (Datum.float (← x.inSeconds range)).toText

end PicoTime
