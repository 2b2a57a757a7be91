import PicoTime.Fault

/-!
# Results of Decoding

Decoding answers in one of two ways. A success carries the timestamp and the
effective length of what was decoded; a failure carries the kind, the cause
and a length, which is zero where there was not even a shape to measure.

The kinds of failure are the classes of errors that have a summary of their
own, and a failure that is not to be kept is the error of that class.

A failure is put in words as it arises, whether anyone reads them or not. So a
failure whose cause names an integer that cannot be written is never returned.
Decoding stops instead.

## Main definitions

* `FailureKind`: The kinds of failure.
* `Decoded`: A timestamp with its length, or a failure.
* `Decoded.kind?`, `Decoded.time?`, `Decoded.length`, `Decoded.detail`: What
  is read off a result.
* `Decoded.checked`: A timestamp whose high digit has to be in a range.
* `Decoded.worded`: A result as it is returned.
* `Decoded.toExcept`: The timestamp and length, or the error.
-/

namespace PicoTime

/-- The kinds of failure. -/
inductive FailureKind where
  | typeMismatch
  | outOfRange
  | overflow
  deriving DecidableEq

namespace FailureKind

/-- The name of a kind. -/
def name : FailureKind → String
  | .typeMismatch => "type_mismatch"
  | .outOfRange => "out_of_range"
  | .overflow => "overflow"

/-- The kind of a name. -/
def ofName? (name : String) : Except ArgumentError FailureKind :=
  match [FailureKind.typeMismatch, .outOfRange, .overflow].find?
      (·.name = name) with
  | some kind => .ok kind
  | none => .error (.unknownKind name)

/-- The error that a failure of this kind is raised as. -/
def error : FailureKind → Cause → TimeError
  | .typeMismatch => .invalid
  | .outOfRange => .outOfRange
  | .overflow => .overflow

end FailureKind

/-- The result of decoding. -/
inductive Decoded where
  | success (time : Timestamp) (length : Int)
  | failure (kind : FailureKind) (cause : Cause) (length : Int)

namespace Decoded

/-- The kind of a failure. -/
def kind? : Decoded → Option FailureKind
  | .success _ _ => none
  | .failure kind _ _ => some kind

/-- The timestamp of a success. -/
def time? : Decoded → Option Timestamp
  | .success t _ => some t
  | .failure _ _ _ => none

/-- The length of what was decoded. -/
def length : Decoded → Int
  | .success _ length => length
  | .failure _ _ length => length

/-- The wording of a failure. A success has nothing to say. -/
def detail : Decoded → String
  | .success _ _ => ""
  | .failure _ cause _ => cause.describe

/-- The failure of something without the shape of a time, of length zero. -/
def mismatch (cause : Cause) : Decoded :=
  .failure .typeMismatch cause 0

/-- Success, if the high digit is in the range. -/
def checked (range : HighRange) (t : Timestamp) (length : Int) : Decoded :=
  if t.high ∈ range then .success t length
  else .failure .outOfRange (.highOutside t.high range) length

/-- Whether a result can be put in words. A success has none. -/
def isShowable : Decoded → Bool
  | .success _ _ => true
  | .failure _ cause _ => cause.isShowable

/-- The result as it is returned, or that its words cannot be written. -/
def worded (d : Decoded) : Except Fault Decoded :=
  if d.isShowable then .ok d else .error (.argument .integerTooLong)

/-- The timestamp and its length, or the error of the failure. -/
def toExcept : Decoded → Except TimeError (Timestamp × Int)
  | .success t length => .ok (t, length)
  | .failure kind cause _ => .error (kind.error cause)

end Decoded

end PicoTime
