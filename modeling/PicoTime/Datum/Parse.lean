import PicoTime.Expression.Tokens
import PicoTime.Expression.Value

/-!
# Reading Data

From text to datum. The whole text must be cut into tokens and the tokens
must spell one expression before anything is made of it, so a fault in the
spelling is always found before a dot that stands first in its list or an
integer of too many digits.

## Main definitions

* `Datum.parse`: The datum that a text denotes.
-/

namespace PicoTime

/-- The expression that a text spells. -/
def Expression.ofText? (text : String) : Option Expression :=
  (Token.all? text.toList).bind Expression.ofTokens?

/-- The datum that a text denotes. -/
def Datum.parse (text : String) : Except Fault Datum :=
  match Expression.ofText? text with
  | some e => e.datum
  | none => .error (TimeError.malformed text).worded

end PicoTime
