import PicoTime.Expression.Token

/-!
# Expressions

The written form of a time as a tree: an atom, a list of expressions, or a
list with a dot and one more expression at its end. The grammar is given
backwards, by the tokens that an expression is written with; an expression
has one spelling, and every list of tokens is the spelling of one expression
at most.

Reading goes from left to right over a stack of lists that are still open,
innermost first. A list that is open has either not met its dot, or met it
and waits for the expression behind it, or has that too and can only be
closed. Each token changes the top of the stack or is out of place.

A parser that is generated from the grammar is taken to accept just what has a
spelling, and to refuse everything else with one error, whatever is out of
place in it and wherever. The stack may become as high as the text is nested.
That a machine may give up before, because too many calls are within each
other, is left out.

## Main definitions

* `Expression`: An atom or a list, perhaps dotted.
* `Expression.tokens`: The tokens an expression is written with.
* `Expression.ofTokens?`: The expression that some tokens spell.
-/

namespace PicoTime

/-- The written form of a time as a tree. -/
inductive Expression where
  | atom (atom : Atom)
  | list (items : List Expression)
  | dotted (items : List Expression) (tail : Expression)

namespace Expression

mutual

/-- The tokens an expression is written with. -/
def tokens : Expression → List Token
  | .atom a => [.atom a]
  | .list items => .opening :: (itemTokens items ++ [.closing])
  | .dotted items tail =>
    .opening :: (itemTokens items ++ .dot :: (tail.tokens ++ [.closing]))

/-- The tokens some expressions are written with, one after another. -/
def itemTokens : List Expression → List Token
  | [] => []
  | e :: es => e.tokens ++ itemTokens es

end

/-- A list that is still open. -/
inductive Pending where
  /-- Items so far, without a dot. -/
  | beforeDot (items : List Expression)
  /-- Items and a dot. -/
  | afterDot (items : List Expression)
  /-- Items, a dot and the expression behind it. -/
  | afterTail (items : List Expression) (tail : Expression)

/-- How far reading has come. -/
inductive Progress where
  /-- Inside some lists, innermost first. -/
  | within (lists : List Pending)
  /-- At the end of an expression that is in no list. -/
  | complete (expression : Expression)

/-- The state after a whole expression. -/
def place (e : Expression) : List Pending → Option Progress
  | [] => some (.complete e)
  | .beforeDot items :: outer =>
    some (.within (.beforeDot (items ++ [e]) :: outer))
  | .afterDot items :: outer => some (.within (.afterTail items e :: outer))
  | .afterTail _ _ :: _ => none

/-- The state after one more token, unless it is out of place. -/
def step : Progress → Token → Option Progress
  | .within lists, .atom a => place (.atom a) lists
  | .within lists, .opening => some (.within (.beforeDot [] :: lists))
  | .within (.beforeDot items :: outer), .dot =>
    some (.within (.afterDot items :: outer))
  | .within (.beforeDot items :: outer), .closing => place (.list items) outer
  | .within (.afterTail items tail :: outer), .closing =>
    place (.dotted items tail) outer
  | _, _ => none

/-- The state after some tokens. -/
def run : Progress → List Token → Option Progress
  | state, [] => some state
  | state, t :: ts => (step state t).bind fun next => run next ts

/-- The expression that some tokens spell. -/
def ofTokens? (ts : List Token) : Option Expression :=
  match run (.within []) ts with
  | some (.complete e) => some e
  | _ => none

end Expression

end PicoTime
