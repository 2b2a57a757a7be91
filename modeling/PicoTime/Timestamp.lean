/-!
# Timestamps

A timestamp is a numeral of four digits in mixed radix: whole seconds split
into a high part and their low sixteen bits, then microseconds, then
picoseconds. The three lower digits are in range by the type, so a negative
time carries its sign in the high digit alone: one second before the epoch is
high −1, low 65535.

`Components` are four integers in the same places without any bound, as
callers write them. Both count the same thing, picoseconds, and normalising
keeps the count: each place hands what exceeds its range to the place above,
rounding toward minus infinity so that what stays is never negative.

A `Sample` is the shape in which clocks tell the time, seconds and
nanoseconds, again without bounds.

## Main definitions

* `Components`, `Components.picoseconds`: Four unbounded places and their
  count.
* `Timestamp`, `Timestamp.picoseconds`: Four digits and their count.
* `Components.normalize`: The timestamp with the same count.
* `Sample`, `Components.ofSample`, `Timestamp.toSample`: Seconds and
  nanoseconds, into components and out of a timestamp.
* `Timestamp.truncate`: The timestamp without its lowest places.

## Theorems

* `Components.picoseconds_normalize`: Normalising keeps the count.
* `Timestamp.ext_of_picoseconds`: The count determines the timestamp.
-/

namespace PicoTime

/-- Seconds in high and low part, microseconds and picoseconds, without
    bounds. -/
structure Components where
  high : Int
  low : Int
  micro : Int
  pico : Int
  deriving DecidableEq

/-- Seconds and nanoseconds, without bounds. -/
structure Sample where
  seconds : Int
  nanoseconds : Int
  deriving DecidableEq

/-- A time or a span of time, in four digits of mixed radix. -/
structure Timestamp where
  high : Int
  low : Int
  micro : Int
  pico : Int
  low_mem : 0 ≤ low ∧ low < 65536 := by omega
  micro_mem : 0 ≤ micro ∧ micro < 1000000 := by omega
  pico_mem : 0 ≤ pico ∧ pico < 1000000 := by omega
  deriving DecidableEq

namespace Components

/-- The number of picoseconds the components add up to. -/
def picoseconds (c : Components) : Int :=
  (c.high * 65536 + c.low) * 1000000000000 + c.micro * 1000000 + c.pico

/-- The timestamp with the same number of picoseconds, by carries from the
    lowest place up. -/
def normalize (c : Components) : Timestamp :=
  let micro := c.micro + c.pico / 1000000
  let low := c.low + micro / 1000000
  { high := c.high + low / 65536
    low := low % 65536
    micro := micro % 1000000
    pico := c.pico % 1000000 }

/-- A sample as components. The nanoseconds are split at the microsecond,
    toward minus infinity. -/
def ofSample (s : Sample) : Components where
  high := 0
  low := s.seconds
  micro := s.nanoseconds / 1000
  pico := s.nanoseconds % 1000 * 1000

/-- The components as a list, from the highest place down. -/
def toList (c : Components) : List Int :=
  [c.high, c.low, c.micro, c.pico]

end Components

namespace Timestamp

/-- The number of picoseconds since the epoch, or in the span. -/
def picoseconds (t : Timestamp) : Int :=
  (t.high * 65536 + t.low) * 1000000000000 + t.micro * 1000000 + t.pico

/-- The epoch, and the empty span. -/
def zero : Timestamp where
  high := 0
  low := 0
  micro := 0
  pico := 0

/-- Whole seconds, toward minus infinity. -/
def seconds (t : Timestamp) : Int :=
  t.high * 65536 + t.low

/-- Whole seconds and nanoseconds. What is left below a nanosecond is cut
    off. -/
def toSample (t : Timestamp) : Sample where
  seconds := t.seconds
  nanoseconds := t.micro * 1000 + t.pico / 1000

/-- The digits as a list, from the highest place down. -/
def toList (t : Timestamp) : List Int :=
  [t.high, t.low, t.micro, t.pico]

/-- The timestamp with the places beyond `length` cleared. Seconds always
    stay. -/
def truncate (t : Timestamp) (length : Int) : Timestamp :=
  if 4 ≤ length then t
  else if length = 3 then
    { high := t.high, low := t.low, micro := t.micro, pico := 0
      low_mem := t.low_mem, micro_mem := t.micro_mem }
  else
    { high := t.high, low := t.low, micro := 0, pico := 0
      low_mem := t.low_mem }

/-- A timestamp as a message shows it. -/
def display (t : Timestamp) : String :=
  "TimeValue(hi=" ++ toString t.high ++ ", lo=" ++ toString t.low
    ++ ", us=" ++ toString t.micro ++ ", ps=" ++ toString t.pico ++ ")"

/-- Two timestamps with the same count have the same digits. -/
theorem ext_of_picoseconds {a b : Timestamp}
    (h : a.picoseconds = b.picoseconds) : a = b := by
  obtain ⟨ah, al, am, ap, hal, ham, hap⟩ := a
  obtain ⟨bh, bl, bm, bp, hbl, hbm, hbp⟩ := b
  simp only [picoseconds] at h
  simp only [Timestamp.mk.injEq]
  omega

end Timestamp

namespace Components

/-- Normalising carries between places and loses nothing. -/
theorem picoseconds_normalize (c : Components) :
    c.normalize.picoseconds = c.picoseconds := by
  simp only [normalize, Timestamp.picoseconds, picoseconds]
  omega

end Components

end PicoTime
