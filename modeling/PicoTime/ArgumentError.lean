import PicoTime.Datum.Display
import PicoTime.Timestamp

/-!
# Arguments that Cannot Be Used

A few values are checked where they are built, before any time is looked at:
the bounds of a range, the nanoseconds of a clock that stands still, the four
digits of a timestamp, the length asked for in an encoding. Refusing one of
them says something about the caller, not about a time, so these causes are
kept apart from the errors of times.

An integer may be offered that is too long for any numeral, or a numeral that
is too long for any integer. That is refused here too, wherever it is met. It
is met by any message that would name such an integer, since a message is put
in words as soon as its cause arises: the refusal takes the place of the error
that the message was for.

## Main definitions

* `Place`: The four places of a timestamp.
* `ArgumentError`: Why an argument cannot be used.
* `ArgumentError.message`: Its wording.
* `ArgumentError.worded`: The error as it is raised.
-/

namespace PicoTime

/-- A place of a timestamp. -/
inductive Place where
  | high
  | low
  | micro
  | pico
  deriving DecidableEq

/-- The name of a place in messages. -/
def Place.label : Place → String
  | .high => "hi"
  | .low => "lo"
  | .micro => "us"
  | .pico => "ps"

/-- Why an argument cannot be used. -/
inductive ArgumentError where
  /-- The lower bound of a range exceeds its upper bound. -/
  | emptyRange (min max : Int)
  /-- The lower bound of a range is not negative. -/
  | minimumNotNegative (min : Int)
  /-- A clock's nanoseconds reach a second or are negative. -/
  | nanosecondsOutside (nanoseconds : Int)
  /-- A dotted sequence without items. -/
  | dottedWithoutItem
  /-- A digit of a timestamp that is not an integer. -/
  | digitNotInteger (place : Place) (datum : Datum)
  /-- A digit of a timestamp outside its place's range. -/
  | digitOutside (place : Place) (digit : Int)
  /-- An encoding of a length that there is none of. -/
  | lengthOutside (length : Int)
  /-- A kind of failure that there is none of. -/
  | unknownKind (name : String)
  /-- A numeral with more digits than are read. -/
  | numeralTooLong (digits : Nat)
  /-- An integer with more digits than are written. -/
  | integerTooLong

namespace ArgumentError

/-- The wording of an argument error. -/
def message : ArgumentError → String
  | .emptyRange min max =>
    "safe range is empty: min " ++ toString min ++ " > max " ++ toString max
  | .minimumNotNegative min =>
    "safe range min must be negative, got " ++ toString min
  | .nanosecondsOutside nanoseconds =>
    "nanoseconds out of range: " ++ toString nanoseconds
  | .dottedWithoutItem =>
    "a dotted list needs at least one item before the tail"
  | .digitNotInteger place datum =>
    "TimeValue." ++ place.label ++ " must be an int, got " ++ datum.display
  | .digitOutside place digit =>
    "TimeValue." ++ place.label ++ " out of range: " ++ toString digit
  | .lengthOutside length =>
    "effective length must be 2, 3 or 4, got " ++ toString length
  | .unknownKind name =>
    quote name ++ " is not a valid TimeErrorKind"
  | .numeralTooLong digits =>
    "Exceeds the limit (" ++ toString numeralLimit
      ++ " digits) for integer string conversion: value has " ++ toString digits
      ++ " digits; use sys.set_int_max_str_digits() to increase the limit"
  | .integerTooLong =>
    "Exceeds the limit (" ++ toString numeralLimit
      ++ " digits) for integer string conversion; use"
      ++ " sys.set_int_max_str_digits() to increase the limit"

/-- Whether the message can name what it names. -/
def isShowable : ArgumentError → Bool
  | .emptyRange min max => hasNumeral min && hasNumeral max
  | .minimumNotNegative min => hasNumeral min
  | .nanosecondsOutside nanoseconds => hasNumeral nanoseconds
  | .digitNotInteger _ datum => datum.isShowable
  | .digitOutside _ digit => hasNumeral digit
  | .lengthOutside length => hasNumeral length
  | _ => true

/-- The error as it is raised, or that its message cannot be written. -/
def worded (e : ArgumentError) : ArgumentError :=
  if e.isShowable then e else .integerTooLong

end ArgumentError

end PicoTime
