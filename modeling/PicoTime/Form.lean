import PicoTime.Datum

/-!
# Forms of a Time

Which shape a datum has decides what it means, before any of its fields is
looked at. Nil asks for the current time, a double counts seconds, and an
integer and the lists fill the four places from the top. The low seconds must
be an integer for the shape to count at all; the other fields are only judged
when the form is decoded.

A list gives two fields or more; those beyond the fourth are passed over. A
dot before the last field is an older way to write the same list with one
item less: `(high . low)` and `(high low . micro)`. Behind three items the
dotted tail fills no place, and behind four or more it is passed over like
any further field.

The length is how many fields were written, four at most. It is what a result
computed from the time will have at least.

## Main definitions

* `Form`: The closed set of shapes.
* `Datum.form?`: The shape of a datum, if it has one.
-/

namespace PicoTime

/-- A datum that has the shape of a time. -/
inductive Form where
  /-- The current time. -/
  | now
  /-- Seconds as a double. -/
  | float (seconds : Binary64)
  /-- The four places. -/
  | components (high : Datum) (low : Int) (micro pico : Datum) (length : Int)

namespace Form

/-- The form of items that fill the places in order. -/
def ofItems? : List Datum → Option Form
  | high :: .int low :: rest =>
    let length : Nat := min (rest.length + 2) 4
    some (.components high low
      (rest[0]?.getD (.int 0)) (rest[1]?.getD (.int 0)) length)
  | _ => none

/-- The form of items before a dot and a datum behind it. -/
def ofDotted? (first : Datum) : List Datum → Datum → Option Form
  -- Nil behind the dot ends an ordinary list.
  | rest, .nil => ofItems? (first :: rest)
  | [], .int low => some (.components first low (.int 0) (.int 0) 2)
  | [.int low], tail => some (.components first low tail (.int 0) 3)
  | [.int low, micro], _ => some (.components first low micro (.int 0) 3)
  -- The items fill all places by themselves.
  | rest@(_ :: _ :: _ :: _), _ => ofItems? (first :: rest)
  | _, _ => none

end Form

/-- The shape a datum has, if it is that of a time. -/
def Datum.form? : Datum → Option Form
  | .nil => some .now
  | .int n => some (.components (.int 0) n (.int 0) (.int 0) 2)
  | .float x => some (.float x)
  | .sequence _ items => Form.ofItems? items
  | .dotted first rest tail => Form.ofDotted? first rest tail
  | _ => none

end PicoTime
