import PicoTime.Text.Printable

/-!
# Quoted Text

How a text appears inside a message. It stands between single quotes, or
between double quotes if it holds a single quote and no double one. A
backslash and the quote in use are written after a backslash, a line feed,
carriage return and tab by their letters, and any other unprintable character
by its code point in two, four or eight hexadecimal digits, whichever is the
first to hold it.

## Main definitions

* `quote`: A text between quotes.
-/

namespace PicoTime

/-- The quote that encloses a text. -/
def quoteMark (cs : List Char) : Char :=
  if '\x27' ∈ cs ∧ '"' ∉ cs then '"' else '\x27'

/-- A code point in at least `width` hexadecimal digits. -/
def hexadecimal (width n : Nat) : List Char :=
  let digits := Nat.toDigits 16 n
  List.replicate (width - digits.length) '0' ++ digits

/-- A character as it stands between the given quotes. -/
def quoteChar (mark c : Char) : List Char :=
  if c = '\\' ∨ c = mark then ['\\', c]
  else if c = '\n' then ['\\', 'n']
  else if c = '\r' then ['\\', 'r']
  else if c = '\t' then ['\\', 't']
  else if isPrintable c then [c]
  else if c.toNat < 256 then '\\' :: 'x' :: hexadecimal 2 c.toNat
  else if c.toNat < 65536 then '\\' :: 'u' :: hexadecimal 4 c.toNat
  else '\\' :: 'U' :: hexadecimal 8 c.toNat

/-- A text between quotes, with what cannot stand there escaped. -/
def quote (s : String) : String :=
  let cs := s.toList
  let mark := quoteMark cs
  String.ofList (mark :: (cs.flatMap (quoteChar mark) ++ [mark]))

end PicoTime
