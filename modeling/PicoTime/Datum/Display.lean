import PicoTime.Datum
import PicoTime.Decimal
import PicoTime.Text.Numeral
import PicoTime.Text.Quoted

/-!
# Data in Messages

How a datum is shown when a message has to name it. Every kind has a form of
its own, so that a message tells apart what a printed time would not: the
integer from the double, the truth value from the number, round brackets from
square ones, and a sequence of one item from the item.

Doubles are shown as the shortest decimal that reads back. The sign of a NaN
is not shown. Integers are written out, so a datum with an integer anywhere in
it that cannot be written cannot be shown.

## Main definitions

* `Binary64.display`: A double in a message.
* `Datum.display`: A datum in a message.
* `Datum.isShowable`: Whether a message can show a datum.
-/

namespace PicoTime

/-- A double as a message shows it. -/
def Binary64.display : Binary64 → String
  | .nan _ => "nan"
  | .infinite negative => if negative then "-inf" else "inf"
  | .finite negative rank => String.ofList (Decimal.shortest negative rank).render

namespace Datum

/-- Items in round brackets. A comma marks a sequence of one. -/
def displayRound (items : List String) : String :=
  match items with
  | [item] => "(" ++ item ++ ",)"
  | _ => "(" ++ ", ".intercalate items ++ ")"

mutual

/-- A datum as a message shows it. -/
def display : Datum → String
  | .nil => "None"
  | .bool value => if value then "True" else "False"
  | .int value => toString value
  | .float value => value.display
  | .text value => quote value
  | .sequence .round items => displayRound (displayItems items)
  | .sequence .square items => "[" ++ ", ".intercalate (displayItems items) ++ "]"
  | .dotted first rest tail =>
    "DottedList(items=" ++ displayRound (first.display :: displayItems rest)
      ++ ", tail=" ++ tail.display ++ ")"
  | .table entries =>
    "\x7b" ++ ", ".intercalate (displayEntries entries) ++ "\x7d"

/-- Some items as a message shows them. -/
def displayItems : List Datum → List String
  | [] => []
  | d :: ds => d.display :: displayItems ds

/-- The entries of a table as a message shows them. -/
def displayEntries : List (Datum × Datum) → List String
  | [] => []
  | (key, value) :: entries =>
    (key.display ++ ": " ++ value.display) :: displayEntries entries

end

mutual

/-- Whether a message can show a datum: all integers in it can be written. -/
def isShowable : Datum → Bool
  | .int value => hasNumeral value
  | .sequence _ items => areShowable items
  | .dotted first rest tail =>
    first.isShowable && areShowable rest && tail.isShowable
  | .table entries => entriesShowable entries
  | _ => true

/-- Whether a message can show some items. -/
def areShowable : List Datum → Bool
  | [] => true
  | d :: ds => d.isShowable && areShowable ds

/-- Whether a message can show the entries of a table. -/
def entriesShowable : List (Datum × Datum) → Bool
  | [] => true
  | (key, value) :: entries =>
    key.isShowable && value.isShowable && entriesShowable entries

end

end Datum

end PicoTime
