import PicoTime.Fault

/-!
# Clocks

A clock answers the question for the current time with seconds and
nanoseconds, and may answer differently each time. So it is a sequence of
samples together with how many of them were taken, and taking one moves it on
by one. Nothing else about time passing matters here: two runs that take
equally many samples of equal clocks see the same times.

A clock promises nothing about its nanoseconds. Only one that stands still is
checked when it is set.

`Timed` is a computation that may take samples and may stop with a fault. The
samples it took before stopping stay taken.

## Main definitions

* `Clock`, `Clock.next`: A sequence of samples, and the one to come.
* `Clock.standing?`: The clock that always shows one time.
* `Clock.ofTicks`: The clock that goes through given samples.
* `Timed`: Computations with a clock.
* `sample`: The current time.
-/

namespace PicoTime

/-- A sequence of samples, of which some were taken. -/
structure Clock where
  tick : Nat → Sample
  taken : Nat := 0

namespace Clock

/-- The sample to come. -/
def next (clock : Clock) : Sample :=
  clock.tick clock.taken

/-- The clock after one more sample. -/
def advance (clock : Clock) : Clock :=
  { clock with taken := clock.taken + 1 }

/-- The clock that always shows the given time. -/
def standing? (s : Sample) : Except ArgumentError Clock :=
  if 0 ≤ s.nanoseconds ∧ s.nanoseconds < 1000000000 then
    .ok { tick := fun _ => s }
  else .error (ArgumentError.nanosecondsOutside s.nanoseconds).worded

/-- The clock that shows the given samples in turn and stays at the last. -/
def ofTicks (first : Sample) (rest : List Sample) : Clock where
  tick n := (first :: rest)[n]?.getD ((first :: rest).getLast (by simp))

end Clock

/-- A computation that may take samples of a clock and may stop with a
    fault. -/
abbrev Timed (α : Type) : Type :=
  ExceptT Fault (StateM Clock) α

/-- The current time, by the next sample of the clock. -/
def sample : Timed Sample := do
  let clock ← get
  set clock.advance
  return clock.next

end PicoTime
