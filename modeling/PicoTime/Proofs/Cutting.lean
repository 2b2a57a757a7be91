import PicoTime.Expression.Tokens

/-!
# Cutting Step by Step

The tokens of a text are its first token and the tokens of what follows, once
blanks are out of the way. The definition says so in one go for a text with
or without a blank at its head; here each case is a lemma of its own. No
token begins with a blank, so the two never meet.

## Theorems

* `Token.first?_blank`: No token begins with a blank.
* `Token.all?_blank`: A blank is passed over.
* `Token.all?_of_first?`: A first token is taken.
* `Token.all?_eq_none`: A text without a first token is no text of tokens.
-/

namespace PicoTime

namespace Token

/-- No token begins where the text ends. -/
theorem first?_nil_text : first? [] = none :=
  rfl

/-- No token begins with a blank. -/
theorem first?_blank (c : Char) (cs : List Char) (h : isBlank c) :
    first? (c :: cs) = none := by
  simp only [isBlank, Bool.or_eq_true, decide_eq_true_eq] at h
  rcases h with (((rfl | rfl) | rfl) | rfl) | rfl <;> rfl

theorem all?_nil : all? [] = some [] := by
  rw [all?]

/-- A blank is passed over. -/
theorem all?_blank (c : Char) (cs : List Char) (h : isBlank c) : all? (c :: cs) = all? cs := by
  rw [all?, if_pos h]

/-- A first token is taken, and the text behind it is cut the same way. -/
theorem all?_of_first? (cs rest : List Char) (t : Token) (h : first? cs = some (t, rest)) :
    all? cs = (all? rest).map fun ts => t :: ts := by
  cases cs with
  | nil => exact absurd h (by simp only [first?_nil_text, reduceCtorEq, not_false_eq_true])
  | cons c cs =>
      -- A blank would have no first token.
      have hblank : ¬ isBlank c = true := by
        intro hc
        rw [first?_blank c cs hc] at h
        exact absurd h (by simp only [reduceCtorEq, not_false_eq_true])
      rw [all?, if_neg hblank]
      split
      · next t' rest' h' =>
        rw [h, Option.some.injEq, Prod.mk.injEq] at h'
        rw [h'.1, h'.2]
      · next h' =>
        rw [h] at h'
        exact absurd h' (by simp only [reduceCtorEq, not_false_eq_true])

/-- A text that begins with neither a blank nor a token cannot be cut. -/
theorem all?_eq_none (c : Char) (cs : List Char) (hblank : isBlank c = false)
    (h : first? (c :: cs) = none) : all? (c :: cs) = none := by
  rw [all?, if_neg (by rw [hblank]; decide)]
  split
  · next h' =>
    rw [h] at h'
    exact absurd h' (by simp only [reduceCtorEq, not_false_eq_true])
  · rfl

end Token

end PicoTime
