import PicoTime.Datum
import PicoTime.Decimal
import PicoTime.Fault

/-!
# Printing Data

From datum to text. Numbers and lists are printed the way they are read, and
an empty list as nil. Infinities and NaNs are printed by names with a decimal
point, so that they read as doubles; a NaN shows its sign.

Truth values, texts and tables have no printed form, and neither has an
integer that is too long to be written. The first of them to be met inside a
datum is the one that is reported, if it can be: an integer that is too long
cannot, and a table with one in it cannot either.

## Main definitions

* `Binary64.print`: A double as characters.
* `Datum.print`: A datum as characters.
* `Datum.toText`: A datum as text.
-/

namespace PicoTime

/-- An integer as characters. -/
def printInt (n : Int) : List Char :=
  let digits := Nat.toDigits 10 n.natAbs
  if n < 0 then '-' :: digits else digits

/-- A double as characters. -/
def Binary64.print : Binary64 → List Char
  | .nan negative =>
    (if negative then ['-'] else []) ++ ['0', '.', '0', 'e', '+', 'N', 'a', 'N']
  | .infinite negative =>
    (if negative then ['-'] else []) ++ ['1', '.', '0', 'e', '+', 'I', 'N', 'F']
  | .finite negative rank => (Decimal.shortest negative rank).render

namespace Datum

/-- Words with one space between them. -/
def spaced : List (List Char) → List Char
  | [] => []
  | [word] => word
  | word :: words => word ++ ' ' :: spaced words

mutual

/-- A datum as characters, or the first datum in it that has no printed
    form. -/
def print : Datum → Except Datum (List Char)
  | .nil => .ok ['n', 'i', 'l']
  | .int n => if hasNumeral n then .ok (printInt n) else .error (.int n)
  | .float x => .ok x.print
  | .sequence _ items => do
    let words ← printItems items
    return if words.isEmpty then ['n', 'i', 'l']
      else '(' :: (spaced words ++ [')'])
  | .dotted first rest tail => do
    let head ← first.print
    let words ← printItems rest
    let last ← tail.print
    return '(' :: (spaced (head :: words) ++ [' ', '.', ' '] ++ last ++ [')'])
  | d => .error d

/-- Some data as characters, each on its own. -/
def printItems : List Datum → Except Datum (List (List Char))
  | [] => .ok []
  | d :: ds => do
    let word ← d.print
    let words ← printItems ds
    return word :: words

end

/-- A datum as text. -/
def toText (d : Datum) : Except Fault String :=
  match d.print with
  | .ok cs => .ok (String.ofList cs)
  | .error d =>
    .error (if d.isShowable then .unprintable d else .argument .integerTooLong)

end Datum

end PicoTime
