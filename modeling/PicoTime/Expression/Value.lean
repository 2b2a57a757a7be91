import PicoTime.Expression
import PicoTime.Fault

/-!
# What Expressions Denote

An atom denotes a number or nil, by the parts it is written with: the digits
of an integer, the decimal of a double, and of the names of infinities and
NaNs only which it is and its sign.

A list denotes the sequence of its items, and no items denote nil. Behind a
dot, a list runs on from the items. A dot with no item before it is well
formed as an expression and denotes nothing.

Evaluating goes from left to right and from the inside out, and stops at the
first thing that has no value. That is a list with a dot and no item before
it, once everything inside it has been evaluated, or an integer with more
digits than are read. An expression may be nested to any depth here.

## Main definitions

* `Atom.value`, `Atom.datum`: The value of an atom, and the value if its
  digits are read.
* `Expression.datum`: The value of an expression.
-/

namespace PicoTime

/-- Whether a sign makes a number negative. -/
def Sign.isMinus (sign : Sign) : Bool :=
  sign = .minus

/-- The exponent of ten that an exponent denotes. -/
def Exponent.value (e : Exponent) : Int :=
  if e.sign.isMinus then -(numeralValue e.digits : Int)
  else numeralValue e.digits

/-- The value of an atom, whatever the number of its digits. -/
def Atom.value : Atom → Datum
  | .nil => .nil
  | .int sign digits _ =>
    .int (if sign.isMinus then -(numeralValue digits : Int)
      else numeralValue digits)
  | .fixed sign whole fraction exponent =>
    .float (.ofDecimal {
      negative := sign.isMinus
      digits := numeralValue (whole ++ fraction)
      exponent := exponent.elim 0 Exponent.value - fraction.length })
  | .scaled sign whole exponent =>
    .float (.ofDecimal {
      negative := sign.isMinus
      digits := numeralValue whole
      exponent := exponent.value })
  | .infinity sign _ _ => .float (.infinite sign.isMinus)
  | .nan sign _ _ => .float (.nan sign.isMinus)

/-- The value of an atom. Only so many digits are read as an integer, while
    those of a double are not counted. -/
def Atom.datum : Atom → Except ArgumentError Datum
  | .int sign digits point =>
    if digits.length ≤ numeralLimit then .ok (Atom.int sign digits point).value
    else .error (.numeralTooLong digits.length)
  | a => .ok a.value

namespace Expression

mutual

/-- The value of an expression, or the first fault that evaluating it meets. -/
def datum : Expression → Except Fault Datum
  | .atom a => orFault a.datum
  | .list items => do
    return Datum.ofItems (← itemData items)
  | .dotted items tail => do
    let data ← itemData items
    let last ← tail.datum
    match data with
    | first :: rest => return .dot first rest last
    | [] => throw (TimeError.invalid .noItemBeforeDot).worded

/-- The values of some expressions. -/
def itemData : List Expression → Except Fault (List Datum)
  | [] => .ok []
  | e :: es => do
    let d ← e.datum
    let ds ← itemData es
    return d :: ds

end

end Expression

end PicoTime
