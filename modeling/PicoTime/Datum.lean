import PicoTime.Binary64.Basic

/-!
# Data Offered as Times

Callers may offer anything where a time is expected, and whether it is one is
the library's to decide. A `Datum` is what they can offer: the numbers and
lists that some time is written with, and next to them the values that never
are a time but still have to be named in a message.

A dotted sequence holds at least one item by its type, the first one, so an
improper list without a head cannot be formed. `Datum.dot` is the sequence
that dot notation *means*: a tail that is itself a list runs on from the
items, and only an atom stays behind the dot. `Datum.dotted` keeps the two
apart, since a caller may offer a dotted sequence that was never spliced.

`Datum.canonical` takes any datum to the one a reader of its printed text
would build: no empty sequences, no square brackets, and every tail spliced.

## Main definitions

* `Datum`: A value offered as a time.
* `Datum.dotted?`: A dotted sequence from a list of items.
* `Datum.int?`: The integer a datum is.
* `Datum.ofItems`, `Datum.dot`: The lists that list and dot notation mean.
* `Datum.canonical`: What a datum's printed text reads as.

## Theorems

* `Datum.int?_eq_some`: Only an integer is one.
-/

namespace PicoTime

/-- How a sequence is bracketed when it is shown. Both kinds are the same
    time. -/
inductive Bracket where
  | round
  | square
  deriving DecidableEq

/-- A value offered as a time. -/
inductive Datum where
  | nil
  | bool (value : Bool)
  | int (value : Int)
  | float (value : Binary64)
  | text (value : String)
  | sequence (bracket : Bracket) (items : List Datum)
  | dotted (first : Datum) (rest : List Datum) (tail : Datum)
  | table (entries : List (Datum × Datum))

namespace Datum

/-- The dotted sequence of some items and a tail, if there is an item. -/
def dotted? (items : List Datum) (tail : Datum) : Option Datum :=
  match items with
  | [] => none
  | first :: rest => some (.dotted first rest tail)

/-- The integer a datum is. A truth value is not one. -/
def int? : Datum → Option Int
  | .int n => some n
  | _ => none

theorem int?_eq_some {d : Datum} {n : Int} : d.int? = some n ↔ d = .int n := by
  cases d <;> simp [int?]

/-- The sequence of some integers. -/
def ofInts (ns : List Int) : Datum :=
  .sequence .round (ns.map .int)

/-- What a list of items means: nil if there are none. -/
def ofItems (items : List Datum) : Datum :=
  if items.isEmpty then .nil else .sequence .round items

/-- What items before a dot and a datum behind it mean. A tail that is a list
    continues the items, and nil ends them. -/
def dot (first : Datum) (rest : List Datum) : Datum → Datum
  | .nil => .sequence .round (first :: rest)
  | .sequence _ more => .sequence .round (first :: (rest ++ more))
  | .dotted next more tail => .dotted first (rest ++ next :: more) tail
  | tail => .dotted first rest tail

mutual

/-- The datum that the printed text of a datum reads as. -/
def canonical : Datum → Datum
  | .sequence _ items => ofItems (canonicalItems items)
  | .dotted first rest tail =>
    dot first.canonical (canonicalItems rest) tail.canonical
  | d => d

/-- The canonical forms of some items. -/
def canonicalItems : List Datum → List Datum
  | [] => []
  | d :: ds => d.canonical :: canonicalItems ds

end

end Datum

end PicoTime
