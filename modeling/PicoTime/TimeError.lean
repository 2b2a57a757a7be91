import PicoTime.HighRange

/-!
# Errors of Times

What is wrong with a time is told twice. The summary is for whoever asked:
that a specification is invalid, or that a time is not representable. The
cause is for whoever investigates, and names the values involved.

Errors fall into classes, and a class may be a special case of another: an
overflow of arithmetic is one way to be out of range, and every class is a
time error.

An error may have the error of a parser behind it. What the parser has to say
is its own affair: only that there is one is kept, and its words, which follow
those of the cause behind a colon, are left out.

## Main definitions

* `Cause`: What exactly went wrong.
* `Cause.describe`: Its wording.
* `Cause.isShowable`: Whether it can be put in words.
* `TimeErrorClass`: The classes of errors.
* `TimeError`: An error with summary and cause.
* `TimeError.details`: The wording of the cause, or failing that the summary.
-/

namespace PicoTime

/-- What exactly went wrong with a time. -/
inductive Cause where
  /-- A datum that has not the form of a time. -/
  | notATime (spec : Datum)
  /-- A list of the right form with something else than integers in it. -/
  | notIntegers (high micro pico : Datum)
  /-- A high digit outside the range. -/
  | highOutside (high : Int) (range : HighRange)
  /-- A double outside the half-open window. -/
  | floatOutside (seconds lower upper : Binary64)
  /-- The high digit of a sum or difference outside the range. -/
  | resultOutside (high : Int) (a b : Timestamp) (range : HighRange)
  /-- The high part of whole seconds outside the range. -/
  | secondsOutside (seconds high : Int) (range : HighRange)
  /-- A text that is no expression. -/
  | notAnExpression (text : String)
  /-- A written list with a dot but no item before it. -/
  | noItemBeforeDot
  /-- A cause given in words. -/
  | note (text : String)

/-- The wording of a cause. -/
def Cause.describe : Cause → String
  | .notATime spec => "not a time specification: " ++ spec.display
  | .notIntegers high micro pico =>
    "non-integer time components: high=" ++ high.display
      ++ " usec=" ++ micro.display ++ " psec=" ++ pico.display
  | .highOutside high range =>
    "high seconds " ++ toString high ++ " outside " ++ range.display
  | .floatOutside seconds lower upper =>
    "float time " ++ seconds.display
      ++ " outside [" ++ lower.display ++ ", " ++ upper.display ++ ")"
  | .resultOutside high a b range =>
    "result high seconds " ++ toString high ++ " from " ++ a.display
      ++ " and " ++ b.display ++ " outside " ++ range.display
  | .secondsOutside seconds high range =>
    "seconds " ++ toString seconds ++ " give high part " ++ toString high
      ++ " outside " ++ range.display
  | .notAnExpression text => "cannot read time from " ++ quote text
  | .noItemBeforeDot => "dotted list has no items before '.'"
  | .note text => text

/-- Whether a cause can be put in words: what it names can be shown. The lower
    digits of a timestamp are short. -/
def Cause.isShowable : Cause → Bool
  | .notATime spec => spec.isShowable
  | .notIntegers high micro pico =>
    high.isShowable && micro.isShowable && pico.isShowable
  | .highOutside high range => hasNumeral high && range.isShowable
  | .resultOutside high a b range =>
    hasNumeral high && hasNumeral a.high && hasNumeral b.high && range.isShowable
  | .secondsOutside seconds high range =>
    hasNumeral seconds && hasNumeral high && range.isShowable
  | _ => true

/-- The classes of errors of times. -/
inductive TimeErrorClass where
  /-- Any error of a time. -/
  | general
  /-- Something that is no time. -/
  | invalid
  /-- A time that cannot be represented. -/
  | outOfRange
  /-- A result of arithmetic that cannot be represented. -/
  | overflow
  deriving DecidableEq

/-- Whether every error of the first class is one of the second. -/
def TimeErrorClass.isA : TimeErrorClass → TimeErrorClass → Bool
  | _, .general => true
  | .overflow, .outOfRange => true
  | a, b => a = b

/-- An error of a time. -/
structure TimeError where
  kind : TimeErrorClass
  summary : String
  cause : Cause
  /-- Whether the error of a parser is behind it. -/
  wrapped : Bool := false

namespace TimeError

/-- Something is no time. -/
def invalid (cause : Cause) : TimeError where
  kind := .invalid
  summary := "Invalid time specification"
  cause := cause

/-- A text is no expression, as the error of the parser says. -/
def malformed (text : String) : TimeError :=
  { invalid (.notAnExpression text) with wrapped := true }

/-- A time cannot be represented. -/
def outOfRange (cause : Cause) : TimeError where
  kind := .outOfRange
  summary := "Specified time is not representable"
  cause := cause

/-- A result of arithmetic cannot be represented. -/
def overflow (cause : Cause) : TimeError where
  kind := .overflow
  summary := "Specified time is not representable"
  cause := cause

/-- The details of an error. The summary stands in for a cause without
    words. -/
def details (e : TimeError) : String :=
  let words := e.cause.describe
  if words.isEmpty then e.summary else words

end TimeError

end PicoTime
