import PicoTime.ArgumentError

/-!
# The Range of the High Digit

The high digit of a timestamp is unbounded in principle; a range says which
values of it a program is prepared to hold. Its lower bound is negative, since
the window of doubles that may be converted is derived from it, and it is
never empty.

Every operation that makes a time is given the range it has to stay in.

## Main definitions

* `HighRange`: An inclusive range with a negative lower bound.
* `HighRange.ofBounds?`: A range from its bounds.
* `HighRange.fixnum`: The integers of 62 bits, the usual range.
-/

namespace PicoTime

/-- Inclusive bounds of the high digit. -/
structure HighRange where
  min : Int
  max : Int
  min_neg : min < 0
  min_le_max : min ≤ max

namespace HighRange

instance : Membership Int HighRange :=
  ⟨fun range n => range.min ≤ n ∧ n ≤ range.max⟩

instance (n : Int) (range : HighRange) : Decidable (n ∈ range) :=
  inferInstanceAs (Decidable (range.min ≤ n ∧ n ≤ range.max))

theorem mem_iff {n : Int} {range : HighRange} :
    n ∈ range ↔ range.min ≤ n ∧ n ≤ range.max :=
  Iff.rfl

/-- The least integer of 62 bits. -/
def fixnumMin : Int := -2305843009213693952

/-- The greatest integer of 62 bits. -/
def fixnumMax : Int := 2305843009213693951

/-- The range of the integers of 62 bits. -/
def fixnum : HighRange where
  min := fixnumMin
  max := fixnumMax
  min_neg := by decide
  min_le_max := by decide

/-- The range with the given bounds. That it would be empty is found before
    that its lower bound is not negative. -/
def ofBounds? (min max : Int) : Except ArgumentError HighRange :=
  if hle : min ≤ max then
    if hneg : min < 0 then .ok ⟨min, max, hneg, hle⟩
    else .error (ArgumentError.minimumNotNegative min).worded
  else .error (ArgumentError.emptyRange min max).worded

/-- A range as the end of a message shows it. -/
def display (range : HighRange) : String :=
  "[" ++ toString range.min ++ ", " ++ toString range.max ++ "]"

/-- Whether a message can show a range: both its bounds can be written. -/
def isShowable (range : HighRange) : Bool :=
  hasNumeral range.min && hasNumeral range.max

end HighRange

end PicoTime
