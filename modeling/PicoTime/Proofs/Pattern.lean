import PicoTime.Expression.Token
import Mathlib.Data.List.Basic

/-!
# Patterns

Regular expressions, as a matcher that backtracks understands them. A pattern
is tried at the beginning of a text and can leave more than one rest: a
repetition may stop early, and of two alternatives both may apply. The rests
come in the order in which they are tried, so that the first of them is what
a match leaves. Repetitions try the longest run first, alternatives are tried
from left to right, and what is optional is tried before it is left out.

A repetition before something that begins with none of its characters never
stops early to any effect. That is what makes a scanner without backtracking
possible, and all that is shown here is for its sake.

## Main definitions

* `Pattern`: A regular expression.
* `Pattern.rests`: What a pattern can leave of a text, in order.
* `Pattern.rest?`: What a match leaves.
* `Pattern.FailsOn`: No match begins with a character of a class.

## Theorems

* `Pattern.rests_word`: A word is matched as a whole.
* `Pattern.rests_many_seq`: The longest run, where no other can go on.
* `Pattern.rest?_many_seq`: The longest run, where it can go on.
-/

namespace PicoTime

/-- A regular expression. -/
inductive Pattern where
  /-- The empty text. -/
  | empty
  /-- One character of a class. -/
  | one (kind : Char → Bool)
  /-- Any number of characters of a class. -/
  | many (kind : Char → Bool)
  /-- One pattern and then another. -/
  | seq (first second : Pattern)
  /-- One pattern or else another. -/
  | either (first second : Pattern)

namespace Pattern

/-- Some characters as they are. -/
def word : List Char → Pattern
  | [] => empty
  | c :: cs => seq (one fun d => c = d) (word cs)

/-- A pattern, or else nothing. -/
def optional (p : Pattern) : Pattern :=
  either p empty

/-- Characters of a class, one at least. -/
def several (kind : Char → Bool) : Pattern :=
  seq (one kind) (many kind)

/-- What any number of characters of a class can leave, after the longest run
    first. -/
def manyRests (kind : Char → Bool) : List Char → List (List Char)
  | [] => [[]]
  | c :: cs => if kind c then manyRests kind cs ++ [c :: cs] else [c :: cs]

/-- What a pattern can leave of a text, in the order it is tried. -/
def rests : Pattern → List Char → List (List Char)
  | empty, cs => [cs]
  | one _, [] => []
  | one kind, c :: cs => if kind c then [cs] else []
  | many kind, cs => manyRests kind cs
  | seq first second, cs => (first.rests cs).flatMap second.rests
  | either first second, cs => first.rests cs ++ second.rests cs

/-- What a match leaves of a text, if there is one. -/
def rest? (p : Pattern) (cs : List Char) : Option (List Char) :=
  (p.rests cs).head?

/-- No match begins with a character of the class. -/
def FailsOn (p : Pattern) (kind : Char → Bool) : Prop :=
  ∀ c cs, kind c → p.rests (c :: cs) = []

theorem rests_empty (cs : List Char) : empty.rests cs = [cs] := rfl

theorem rests_one (kind : Char → Bool) (c : Char) (cs : List Char) :
    (one kind).rests (c :: cs) = if kind c then [cs] else [] := rfl

theorem rests_many (kind : Char → Bool) (cs : List Char) :
    (many kind).rests cs = manyRests kind cs := rfl

theorem rests_seq (a b : Pattern) (cs : List Char) :
    (seq a b).rests cs = (a.rests cs).flatMap b.rests := rfl

theorem rests_either (a b : Pattern) (cs : List Char) :
    (either a b).rests cs = a.rests cs ++ b.rests cs := rfl

theorem rests_seq_assoc (a b c : Pattern) (cs : List Char) :
    (seq (seq a b) c).rests cs = (seq a (seq b c)).rests cs := by
  rw [rests_seq, rests_seq, rests_seq, List.flatMap_assoc]
  rfl

theorem rest?_either (a b : Pattern) (cs : List Char) :
    (either a b).rest? cs = (a.rest? cs).or (b.rest? cs) := by
  rw [rest?, rests_either, List.head?_append]
  rfl

/-- Something optional can always be left out. -/
theorem rest?_optional (p : Pattern) (cs : List Char) :
    (optional p).rest? cs = some ((p.rest? cs).getD cs) := by
  rw [optional, rest?_either]
  rcases p.rest? cs with _ | rest <;> rfl

/-- A word is matched as a whole or not at all. -/
theorem rests_word (w cs : List Char) : (word w).rests cs = (afterWord? w cs).toList := by
  induction w generalizing cs with
  | nil => rfl
  | cons c w ih =>
      cases cs with
      | nil => rfl
      | cons d cs =>
          -- The first letters are compared, and the rest of the word follows.
          simp only [word, rests_seq, rests_one, afterWord?, decide_eq_true_eq]
          by_cases h : c = d
          · rw [if_pos h, if_pos h, List.flatMap_singleton, ih]
          · rw [if_neg h, if_neg h]
            rfl

theorem rests_word_seq (w : List Char) (b : Pattern) (cs : List Char) :
    (seq (word w) b).rests cs = (afterWord? w cs).elim [] b.rests := by
  rw [rests_seq, rests_word]
  rcases afterWord? w cs with _ | rest
  · rfl
  · exact List.flatMap_singleton _ _

/-! ## Where a match cannot begin -/

theorem failsOn_one (p kind : Char → Bool) (h : ∀ c, kind c → p c = false) :
    (one p).FailsOn kind := by
  intro c cs hc
  rw [rests_one, h c hc, if_neg (by decide)]

theorem failsOn_seq (a b : Pattern) (kind : Char → Bool) (h : a.FailsOn kind) :
    (seq a b).FailsOn kind := by
  intro c cs hc
  rw [rests_seq, h c cs hc, List.flatMap_nil]

theorem failsOn_either (a b : Pattern) (kind : Char → Bool) (ha : a.FailsOn kind)
    (hb : b.FailsOn kind) : (either a b).FailsOn kind := by
  intro c cs hc
  rw [rests_either, ha c cs hc, hb c cs hc, List.append_nil]

/-- Before something else a repetition may be left out, and then the other
    must not begin there either. -/
theorem failsOn_many_seq (p kind : Char → Bool) (b : Pattern) (h : ∀ c, kind c → p c = false)
    (hb : b.FailsOn kind) : (seq (many p) b).FailsOn kind := by
  intro c cs hc
  rw [rests_seq, rests_many, manyRests, h c hc, if_neg (by decide), List.flatMap_singleton,
    hb c cs hc]

/-! ## Repetitions -/

/-- Every run of a repetition but the longest stops before one more character
    of its class. -/
theorem manyRests_eq (kind : Char → Bool) (cs : List Char) :
    ∃ more, manyRests kind cs = cs.dropWhile kind :: more
      ∧ ∀ rest ∈ more, ∃ c tail, rest = c :: tail ∧ kind c := by
  induction cs with
  | nil => exact ⟨[], rfl, fun _ h => absurd h List.not_mem_nil⟩
  | cons c cs ih =>
      rcases ih with ⟨more, hmore, hall⟩
      by_cases hc : kind c
      · -- Stopping here is one more possibility, and the last to be tried.
        refine ⟨more ++ [c :: cs], ?_, fun rest hrest => ?_⟩
        · rw [manyRests, if_pos hc, hmore, List.dropWhile_cons_of_pos hc, List.cons_append]
        · rcases List.mem_append.mp hrest with h | h
          · exact hall rest h
          · exact ⟨c, cs, List.mem_singleton.mp h, hc⟩
      · refine ⟨[], ?_, fun _ h => absurd h List.not_mem_nil⟩
        rw [manyRests, if_neg hc, List.dropWhile_cons_of_neg hc]

/-- Before a pattern that begins with none of its characters, a repetition
    takes the longest run and no other. -/
theorem rests_many_seq (kind : Char → Bool) (b : Pattern) (hb : b.FailsOn kind)
    (cs : List Char) : (seq (many kind) b).rests cs = b.rests (cs.dropWhile kind) := by
  rcases manyRests_eq kind cs with ⟨more, hmore, hall⟩
  -- After any shorter run the other pattern meets a character it fails on.
  have hnone : more.flatMap b.rests = [] := by
    rw [List.flatMap_eq_nil_iff]
    intro rest hrest
    rcases hall rest hrest with ⟨c, tail, rfl, hc⟩
    exact hb c tail hc
  rw [rests_seq, rests_many, hmore, List.flatMap_cons, hnone, List.append_nil]

/-- Where the longest run can go on, a match takes it. -/
theorem rest?_many_seq (kind : Char → Bool) (b : Pattern) (cs rest : List Char)
    (h : b.rest? (cs.dropWhile kind) = some rest) : (seq (many kind) b).rest? cs = some rest := by
  rcases manyRests_eq kind cs with ⟨more, hmore, -⟩
  rw [rest?, rests_seq, rests_many, hmore, List.flatMap_cons, List.head?_append]
  change ((b.rest? _).or _) = _
  rw [h, Option.some_or]

end Pattern

end PicoTime
