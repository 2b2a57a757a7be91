import PicoTime.Fault

/-!
# Sums and Differences

Two timestamps are added place by place. Since their digits are in range, a
place of the sum exceeds its own by one unit at most, and one comparison per
place finds the carry; a difference borrows in the same way. Only the high
digit can leave the range it has to stay in, and that is an overflow.

## Main definitions

* `Timestamp.add`, `Timestamp.sub`: Sum and difference.
* `Timestamp.addWithin`, `Timestamp.subWithin`: The same within a range.

## Theorems

* `Timestamp.picoseconds_add`, `Timestamp.picoseconds_sub`: The counts are
  added and subtracted.
-/

namespace PicoTime

namespace Timestamp

/-- One if a place has reached its radix. -/
def carry (radix digit : Int) : Int :=
  if radix ≤ digit then 1 else 0

/-- One if a place has fallen below zero. -/
def borrow (digit : Int) : Int :=
  if digit < 0 then 1 else 0

theorem carry_eq (radix digit : Int) :
    radix ≤ digit ∧ carry radix digit = 1
      ∨ digit < radix ∧ carry radix digit = 0 := by
  unfold carry
  split <;> omega

theorem borrow_eq (digit : Int) :
    digit < 0 ∧ borrow digit = 1 ∨ 0 ≤ digit ∧ borrow digit = 0 := by
  unfold borrow
  split <;> omega

/-- The sum, with at most one unit carried out of each place. -/
def add (a b : Timestamp) : Timestamp :=
  let pico := a.pico + b.pico
  let picoCarry := carry 1000000 pico
  let micro := a.micro + b.micro + picoCarry
  let microCarry := carry 1000000 micro
  let low := a.low + b.low + microCarry
  let lowCarry := carry 65536 low
  { high := a.high + b.high + lowCarry
    low := low - 65536 * lowCarry
    micro := micro - 1000000 * microCarry
    pico := pico - 1000000 * picoCarry
    pico_mem := by
      have := a.pico_mem
      have := b.pico_mem
      have := carry_eq 1000000 pico
      omega
    micro_mem := by
      have := a.micro_mem
      have := b.micro_mem
      have := carry_eq 1000000 pico
      have := carry_eq 1000000 micro
      omega
    low_mem := by
      have := a.low_mem
      have := b.low_mem
      have := carry_eq 1000000 micro
      have := carry_eq 65536 low
      omega }

/-- The difference, with at most one unit borrowed by each place. -/
def sub (a b : Timestamp) : Timestamp :=
  let pico := a.pico - b.pico
  let picoBorrow := borrow pico
  let micro := a.micro - b.micro - picoBorrow
  let microBorrow := borrow micro
  let low := a.low - b.low - microBorrow
  let lowBorrow := borrow low
  { high := a.high - b.high - lowBorrow
    low := low + 65536 * lowBorrow
    micro := micro + 1000000 * microBorrow
    pico := pico + 1000000 * picoBorrow
    pico_mem := by
      have := a.pico_mem
      have := b.pico_mem
      have := borrow_eq pico
      omega
    micro_mem := by
      have := a.micro_mem
      have := b.micro_mem
      have := borrow_eq pico
      have := borrow_eq micro
      omega
    low_mem := by
      have := a.low_mem
      have := b.low_mem
      have := borrow_eq micro
      have := borrow_eq low
      omega }

instance : Add Timestamp := ⟨add⟩
instance : Sub Timestamp := ⟨sub⟩

/-- Carrying loses nothing. -/
theorem picoseconds_add (a b : Timestamp) :
    (a + b).picoseconds = a.picoseconds + b.picoseconds := by
  change (add a b).picoseconds = _
  simp only [add, picoseconds]
  omega

/-- Borrowing loses nothing. -/
theorem picoseconds_sub (a b : Timestamp) :
    (a - b).picoseconds = a.picoseconds - b.picoseconds := by
  change (sub a b).picoseconds = _
  simp only [sub, picoseconds]
  omega

/-- The result of an operation on two timestamps, if its high digit is in the
    range. -/
def within (range : HighRange) (a b result : Timestamp) :
    Except Fault Timestamp :=
  if result.high ∈ range then .ok result
  else .error (TimeError.overflow (.resultOutside result.high a b range)).worded

/-- The sum of two timestamps, within a range. -/
def addWithin (range : HighRange) (a b : Timestamp) :
    Except Fault Timestamp :=
  within range a b (a + b)

/-- The difference of two timestamps, within a range. -/
def subWithin (range : HighRange) (a b : Timestamp) :
    Except Fault Timestamp :=
  within range a b (a - b)

end Timestamp

end PicoTime
