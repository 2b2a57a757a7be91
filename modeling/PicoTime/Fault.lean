import PicoTime.TimeError

/-!
# Faults

Everything an operation can stop with. Most often that is an error of a time;
beside it stand arguments that cannot be used, numbers that do not fit the
double they have to become, and data that no printed time can hold.

## Main definitions

* `ConversionError`: Why a number has no counterpart of the other kind.
* `Fault`: What an operation stops with.
* `TimeError.worded`: What raising an error of a time stops with.
-/

namespace PicoTime

/-- Why a number cannot be converted. -/
inductive ConversionError where
  /-- An integer beyond the largest finite double. -/
  | integerTooLarge
  /-- A quotient of integers beyond the largest finite double. -/
  | quotientTooLarge
  /-- An infinity, which no integer equals. -/
  | infinityNotInteger
  deriving DecidableEq

/-- The wording of a conversion error. -/
def ConversionError.message : ConversionError → String
  | .integerTooLarge => "int too large to convert to float"
  | .quotientTooLarge => "integer division result too large for a float"
  | .infinityNotInteger => "cannot convert float infinity to integer"

/-- What an operation stops with. -/
inductive Fault where
  /-- An error of a time. -/
  | time (error : TimeError)
  /-- An argument that cannot be used. -/
  | argument (error : ArgumentError)
  /-- A number that cannot be converted. -/
  | conversion (error : ConversionError)
  /-- A datum that has no printed form. -/
  | unprintable (datum : Datum)

/-- The wording of a fault. -/
def Fault.message : Fault → String
  | .time error => error.summary
  | .argument error => error.message
  | .conversion error => error.message
  | .unprintable datum => "cannot print " ++ datum.display ++ " as a time"

instance : Coe TimeError Fault := ⟨.time⟩
instance : Coe ArgumentError Fault := ⟨.argument⟩
instance : Coe ConversionError Fault := ⟨.conversion⟩

/-- The error as it is raised, or that its message cannot be written. -/
def TimeError.worded (e : TimeError) : Fault :=
  if e.cause.isShowable then .time e else .argument .integerTooLong

/-- The value, or the error as a fault. -/
def orFault {ε α : Type} [Coe ε Fault] : Except ε α → Except Fault α
  | .ok a => .ok a
  | .error e => .error (Coe.coe e)

end PicoTime
