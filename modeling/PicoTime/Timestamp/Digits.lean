import PicoTime.ArgumentError

/-!
# Timestamps from Given Digits

The direct way to a timestamp: four data that must already be its digits.
Nothing is carried here. All four are first required to be integers, in the
order of their places, and then the three lower ones to be in range.

## Main definitions

* `Place.digit?`: The integer given for a place.
* `Timestamp.ofDigits?`: The timestamp with four given digits.
* `Timestamp.ofData?`: The timestamp with four data as its digits.

## Theorems

* `Timestamp.ofDigits?_digits`: A timestamp's own digits give it back.
-/

namespace PicoTime

/-- The integer given for a place. -/
def Place.digit? (place : Place) (d : Datum) : Except ArgumentError Int :=
  match d.int? with
  | some n => .ok n
  | none => .error (ArgumentError.digitNotInteger place d).worded

namespace Timestamp

/-- The timestamp with the given digits, if the lower three are in range. -/
def ofDigits? (high low micro pico : Int) : Except ArgumentError Timestamp :=
  if hl : 0 ≤ low ∧ low < 65536 then
    if hm : 0 ≤ micro ∧ micro < 1000000 then
      if hp : 0 ≤ pico ∧ pico < 1000000 then
        .ok ⟨high, low, micro, pico, hl, hm, hp⟩
      else .error (ArgumentError.digitOutside .pico pico).worded
    else .error (ArgumentError.digitOutside .micro micro).worded
  else .error (ArgumentError.digitOutside .low low).worded

/-- The timestamp with the given data as its digits. -/
def ofData? (high low micro pico : Datum) : Except ArgumentError Timestamp := do
  let h ← Place.high.digit? high
  let l ← Place.low.digit? low
  let m ← Place.micro.digit? micro
  let p ← Place.pico.digit? pico
  ofDigits? h l m p

/-- The digits of a timestamp are accepted as they are. -/
theorem ofDigits?_digits (t : Timestamp) :
    ofDigits? t.high t.low t.micro t.pico = .ok t := by
  simp only [ofDigits?, t.low_mem, t.micro_mem, t.pico_mem, and_self, ↓reduceDIte]

end Timestamp

end PicoTime
