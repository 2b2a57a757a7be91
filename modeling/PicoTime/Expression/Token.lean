import PicoTime.Text.Digit

/-!
# Tokens of Expressions

The written form of a time is cut into tokens from left to right: brackets,
the dot of a dotted list, and atoms. An atom keeps the parts it was written
with, so its text can be put together again, and its value is read off the
parts elsewhere.

The kinds of atoms overlap. `1.5` could be the integer `1.` and then `5`, and
`1.0e+INF` could be the double `1.0` and then letters. So the readings have
an order, and the first that applies at a place is taken: the names of
infinities and NaNs and the word for nil, then doubles, integers, the dot and
the brackets. A reading takes as many digits as there are, and an exponent if
it is complete.

Blanks may stand between tokens and need not. Digits of any script count.

The grammar is one for a generator of parsers, and what such a generator does
is taken as given: it tries the kinds in the order of their priorities, and
passes over blanks between tokens and nowhere else. It may leave out kinds that
are out of place where it cuts. That makes no difference here, since the text
is refused in either case, and with the same error.

## Main definitions

* `Atom`: An atom in its written parts.
* `Token`: An atom, a dot or a bracket.
* `Token.text`: How a token is written.
* `Token.readings`: All tokens that a text could begin with, in order.
* `Token.first?`: The token that a text begins with.
-/

namespace PicoTime

/-- A written sign, or none. -/
inductive Sign where
  | none
  | plus
  | minus
  deriving DecidableEq

/-- How a sign is written. -/
def Sign.text : Sign → List Char
  | .none => []
  | .plus => ['+']
  | .minus => ['-']

/-- A written exponent of ten, with the letter that begins it. -/
structure Exponent where
  letter : Char
  sign : Sign
  digits : List Char
  deriving DecidableEq

/-- How an exponent is written. -/
def Exponent.text (e : Exponent) : List Char :=
  e.letter :: (e.sign.text ++ e.digits)

/-- An atom in its written parts. -/
inductive Atom where
  /-- The empty list by name. -/
  | nil
  /-- An integer, perhaps with a point after it. -/
  | int (sign : Sign) (digits : List Char) (point : Bool)
  /-- A double with digits after a point. -/
  | fixed (sign : Sign) (whole fraction : List Char) (exponent : Option Exponent)
  /-- A double without a point, and so with an exponent. -/
  | scaled (sign : Sign) (whole : List Char) (exponent : Exponent)
  /-- The name of an infinity. -/
  | infinity (sign : Sign) (whole fraction : List Char)
  /-- The name of a NaN. -/
  | nan (sign : Sign) (whole fraction : List Char)
  deriving DecidableEq

/-- The word for nil. -/
def nilWord : List Char := ['n', 'i', 'l']

/-- What follows the digits in the name of an infinity. -/
def infinityMark : List Char := ['e', '+', 'I', 'N', 'F']

/-- What follows the digits in the name of a NaN. -/
def nanMark : List Char := ['e', '+', 'N', 'a', 'N']

/-- How an atom is written. -/
def Atom.text : Atom → List Char
  | .nil => nilWord
  | .int sign digits point =>
    sign.text ++ digits ++ if point then ['.'] else []
  | .fixed sign whole fraction exponent =>
    sign.text ++ whole ++ '.' :: (fraction ++ exponent.elim [] Exponent.text)
  | .scaled sign whole exponent => sign.text ++ whole ++ exponent.text
  | .infinity sign whole fraction =>
    sign.text ++ whole ++ '.' :: (fraction ++ infinityMark)
  | .nan sign whole fraction =>
    sign.text ++ whole ++ '.' :: (fraction ++ nanMark)

/-- A token of the written form. -/
inductive Token where
  | atom (atom : Atom)
  | dot
  | opening
  | closing
  deriving DecidableEq

/-- How a token is written. -/
def Token.text : Token → List Char
  | .atom a => a.text
  | .dot => ['.']
  | .opening => ['(']
  | .closing => [')']

/-- Whether a character may stand between tokens. -/
def isBlank (c : Char) : Bool :=
  c = ' ' || c = '\t' || c = '\x0c' || c = '\r' || c = '\n'

/-! ## Parts of atoms -/

/-- What follows a word, if the text begins with it. -/
def afterWord? : List Char → List Char → Option (List Char)
  | [], cs => some cs
  | _ :: _, [] => none
  | w :: ws, c :: cs => if w = c then afterWord? ws cs else none

/-- A sign, and what follows it. -/
def takeSign : List Char → Sign × List Char
  | '+' :: cs => (.plus, cs)
  | '-' :: cs => (.minus, cs)
  | cs => (.none, cs)

/-- The digits a text begins with, and what follows them. -/
def takeDigits (cs : List Char) : List Char × List Char :=
  (cs.takeWhile isDigit, cs.dropWhile isDigit)

/-- The digits a text begins with, one at least, and what follows them. -/
def someDigits? (cs : List Char) : Option (List Char × List Char) :=
  let (digits, rest) := takeDigits cs
  if digits.isEmpty then none else some (digits, rest)

/-- A complete exponent, and what follows it. -/
def exponent? : List Char → Option (Exponent × List Char)
  | [] => none
  | letter :: cs =>
    if letter = 'e' ∨ letter = 'E' then
      let (sign, cs) := takeSign cs
      (someDigits? cs).map fun (digits, rest) => (⟨letter, sign, digits⟩, rest)
    else none

/-! ## Readings -/

namespace Atom

/-- The word for nil. -/
def nil? (cs : List Char) : Option (Atom × List Char) :=
  (afterWord? nilWord cs).map fun rest => (.nil, rest)

/-- The name of an infinity or a NaN. -/
def special? (cs : List Char) : Option (Atom × List Char) := do
  let (sign, cs) := takeSign cs
  let (whole, cs) ← someDigits? cs
  let cs ← afterWord? ['.'] cs
  let (fraction, cs) ← someDigits? cs
  match afterWord? infinityMark cs with
  | some rest => return (.infinity sign whole fraction, rest)
  | none =>
    let rest ← afterWord? nanMark cs
    return (.nan sign whole fraction, rest)

/-- A double with a point or an exponent. -/
def float? (cs : List Char) : Option (Atom × List Char) :=
  let (sign, cs) := takeSign cs
  let (whole, cs) := takeDigits cs
  match afterWord? ['.'] cs with
  | some cs =>
    (someDigits? cs).map fun (fraction, cs) =>
      -- An exponent that is not complete is no part of the double.
      match exponent? cs with
      | some (exponent, rest) => (.fixed sign whole fraction exponent, rest)
      | none => (.fixed sign whole fraction none, cs)
  | none =>
    if whole.isEmpty then none
    else (exponent? cs).map fun (exponent, rest) =>
      (.scaled sign whole exponent, rest)

/-- An integer, with a point if one follows. -/
def int? (cs : List Char) : Option (Atom × List Char) :=
  let (sign, cs) := takeSign cs
  (someDigits? cs).map fun (digits, cs) =>
    match afterWord? ['.'] cs with
    | some rest => (.int sign digits true, rest)
    | none => (.int sign digits false, cs)

end Atom

namespace Token

/-- A reading of an atom, as a reading of a token. -/
def ofAtom? (reader : List Char → Option (Atom × List Char))
    (cs : List Char) : Option (Token × List Char) :=
  (reader cs).map fun (a, rest) => (.atom a, rest)

/-- The reading of a token that is always written alike. -/
def literal? (token : Token) (cs : List Char) : Option (Token × List Char) :=
  (afterWord? token.text cs).map fun rest => (token, rest)

/-- The readings of a token, in the order they are tried. -/
def readers : List (List Char → Option (Token × List Char)) :=
  [ofAtom? Atom.special?, ofAtom? Atom.nil?, ofAtom? Atom.float?,
    ofAtom? Atom.int?, literal? .dot, literal? .opening, literal? .closing]

/-- Every token that a text could begin with, each with what follows it. -/
def readings (cs : List Char) : List (Token × List Char) :=
  readers.filterMap fun reader => reader cs

/-- The token that a text begins with, and what follows it. -/
def first? (cs : List Char) : Option (Token × List Char) :=
  (readings cs).head?

end Token

end PicoTime
