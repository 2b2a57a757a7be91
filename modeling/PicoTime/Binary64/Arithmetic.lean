import PicoTime.Binary64.Rounding

/-!
# Arithmetic and Order

Sums, products and quotients are exact rationals rounded once. The cases
around them are those of the standard: a NaN operand is passed on, an
operation without a meaning gives a NaN, and an infinity absorbs.

A product or quotient that is zero takes the sign its factors give it. An
exact sum of zero is negative only if both terms are.

Comparisons are false whenever a NaN takes part, and do not tell the two
zeros apart.

## Main definitions

* `Binary64.add`, `Binary64.sub`, `Binary64.mul`, `Binary64.div`: The four
  operations.
* `Binary64.le`, `Binary64.lt`: The comparisons.
* `Binary64.floor?`: The greatest integer not above a double.
* `Binary64.truncate`: The integer part, toward zero.
-/

namespace PicoTime

namespace Binary64

/-- The double with the sign turned. -/
def neg : Binary64 → Binary64
  | .nan negative => .nan !negative
  | .infinite negative => .infinite !negative
  | .finite negative rank => .finite (!negative) rank

/-- The rounded sum. -/
def add : Binary64 → Binary64 → Binary64
  | .nan s, _ => .nan s
  | _, .nan t => .nan t
  | .infinite s, .infinite t => if s = t then .infinite s else .nan false
  | .infinite s, .finite _ _ => .infinite s
  | .finite _ _, .infinite t => .infinite t
  | .finite s a, .finite t b =>
    round (s && t) (signedValue s a + signedValue t b)

/-- The rounded difference. -/
def sub (x y : Binary64) : Binary64 :=
  add x (neg y)

/-- The rounded product. -/
def mul : Binary64 → Binary64 → Binary64
  | .nan s, _ => .nan s
  | _, .nan t => .nan t
  | .infinite s, .infinite t => .infinite (s != t)
  | .infinite s, .finite t b =>
    if (b : Nat) = 0 then .nan false else .infinite (s != t)
  | .finite s a, .infinite t =>
    if (a : Nat) = 0 then .nan false else .infinite (s != t)
  | .finite s a, .finite t b =>
    round (s != t) (signedValue s a * signedValue t b)

/-- The rounded quotient. -/
def div : Binary64 → Binary64 → Binary64
  | .nan s, _ => .nan s
  | _, .nan t => .nan t
  | .infinite _, .infinite _ => .nan false
  | .infinite s, .finite t _ => .infinite (s != t)
  | .finite s _, .infinite t => zero (s != t)
  | .finite s a, .finite t b =>
    if (b : Nat) = 0 then
      if (a : Nat) = 0 then .nan false else .infinite (s != t)
    else
      round (s != t) (signedValue s a / signedValue t b)

instance : Neg Binary64 := ⟨neg⟩
instance : Add Binary64 := ⟨add⟩
instance : Sub Binary64 := ⟨sub⟩
instance : Mul Binary64 := ⟨mul⟩
instance : Div Binary64 := ⟨div⟩

/-- The order of the extended numbers. -/
def le : Binary64 → Binary64 → Bool
  | .nan _, _ => false
  | _, .nan _ => false
  | .infinite s, .infinite t => s || !t
  | .infinite s, .finite _ _ => s
  | .finite _ _, .infinite t => !t
  | .finite s a, .finite t b => decide (signedValue s a ≤ signedValue t b)

/-- The strict order of the extended numbers. -/
def lt : Binary64 → Binary64 → Bool
  | .nan _, _ => false
  | _, .nan _ => false
  | .infinite s, .infinite t => s && !t
  | .infinite s, .finite _ _ => s
  | .finite _ _, .infinite t => !t
  | .finite s a, .finite t b => decide (signedValue s a < signedValue t b)

/-- The greatest integer not above a finite double. -/
def floor? : Binary64 → Option Int
  | .finite negative rank => some (signedValue negative rank).floor
  | _ => none

/-- The integer part of a finite double, cut off toward zero. The others have
    none, and zero stands in for it. -/
def truncate (x : Binary64) : Int :=
  if x.value < 0 then -(-x.value).floor else x.value.floor

end Binary64

end PicoTime
