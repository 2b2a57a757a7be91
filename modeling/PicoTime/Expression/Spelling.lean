import PicoTime.Expression

/-!
# Spelling and Reading

Reading the tokens of an expression gives the expression back, and whatever
tokens are read as an expression are its spelling. So the grammar is the one
the spelling gives, and no list of tokens is ambiguous.

The first half goes by induction on the expression, and needs to be said of
expressions anywhere in a text: after any lists still open, and before any
tokens to come. The second keeps account of what was read. Every state stands
for the tokens that led to it, and a step adds its token to them.

## Main definitions

* `Expression.Progress.tokens`: The tokens that lead to a state.

## Theorems

* `Expression.run_tokens`: Reading the spelling of an expression.
* `Expression.tokens_of_run`: A state accounts for the tokens read.
* `Expression.ofTokens?_eq_some`: Tokens read as an expression exactly if
  they spell it.
-/

namespace PicoTime

namespace Expression

mutual

/-- Reading the spelling of an expression puts the expression in its place,
    whatever lists are open and whatever comes next. -/
theorem run_tokens (e : Expression) (lists : List Pending) (ts : List Token) :
    run (.within lists) (e.tokens ++ ts)
      = (place e lists).bind fun next => run next ts := by
  match e with
  | .atom a => rfl
  | .list items =>
    simp only [tokens, List.cons_append, List.append_assoc, List.nil_append,
      run, step, Option.bind_some]
    rw [run_itemTokens items [] lists]
    rfl
  | .dotted items tail =>
    simp only [tokens, List.cons_append, List.append_assoc, List.nil_append,
      run, step, Option.bind_some]
    rw [run_itemTokens items [] lists]
    simp only [run, step, Option.bind_some]
    rw [run_tokens tail]
    rfl

/-- Reading the spellings of some items appends them to the innermost list. -/
theorem run_itemTokens (es before : List Expression) (outer : List Pending)
    (ts : List Token) :
    run (.within (.beforeDot before :: outer)) (itemTokens es ++ ts)
      = run (.within (.beforeDot (before ++ es) :: outer)) ts := by
  match es with
  | [] => simp [itemTokens]
  | e :: es =>
    simp only [itemTokens, List.append_assoc]
    rw [run_tokens e]
    simp only [place, Option.bind_some]
    rw [run_itemTokens es]
    simp

end

/-- The tokens that opened a list and led to where it is. -/
def Pending.tokens : Pending → List Token
  | .beforeDot items => .opening :: itemTokens items
  | .afterDot items => .opening :: (itemTokens items ++ [.dot])
  | .afterTail items tail =>
    .opening :: (itemTokens items ++ .dot :: tail.tokens)

/-- The tokens that lead to a state. -/
def Progress.tokens : Progress → List Token
  | .within lists => (lists.reverse.map Pending.tokens).flatten
  | .complete e => e.tokens

theorem itemTokens_append (es fs : List Expression) :
    itemTokens (es ++ fs) = itemTokens es ++ itemTokens fs := by
  induction es with
  | nil => rfl
  | cons e es ih => simp [itemTokens, ih]

theorem tokens_of_place {e : Expression} {lists : List Pending}
    {next : Progress} (h : place e lists = some next) :
    next.tokens = (Progress.within lists).tokens ++ e.tokens := by
  unfold place at h
  split at h <;> simp only [Option.some.injEq, reduceCtorEq] at h <;> subst h
  all_goals simp [Progress.tokens, Pending.tokens, itemTokens_append, itemTokens]

theorem tokens_of_step {state next : Progress} {t : Token}
    (h : step state t = some next) : next.tokens = state.tokens ++ [t] := by
  unfold step at h
  split at h
  · exact tokens_of_place h
  · simp only [Option.some.injEq] at h
    subst h
    simp [Progress.tokens, Pending.tokens, itemTokens]
  · simp only [Option.some.injEq] at h
    subst h
    simp [Progress.tokens, Pending.tokens]
  · rw [tokens_of_place h]
    simp [Progress.tokens, Pending.tokens, Expression.tokens]
  · rw [tokens_of_place h]
    simp [Progress.tokens, Pending.tokens, Expression.tokens]
  · simp at h

/-- The state after some tokens accounts for them. -/
theorem tokens_of_run {state last : Progress} {ts : List Token}
    (h : run state ts = some last) : last.tokens = state.tokens ++ ts := by
  induction ts generalizing state with
  | nil =>
    simp only [run, Option.some.injEq] at h
    simp [h]
  | cons t ts ih =>
    simp only [run, Option.bind_eq_some_iff] at h
    obtain ⟨next, hstep, hrun⟩ := h
    rw [ih hrun, tokens_of_step hstep]
    simp

/-- Tokens read as an expression exactly if they spell it. -/
theorem ofTokens?_eq_some {ts : List Token} {e : Expression} :
    ofTokens? ts = some e ↔ ts = e.tokens := by
  constructor
  · intro h
    unfold ofTokens? at h
    split at h
    · next last hrun =>
      simp only [Option.some.injEq] at h
      subst h
      simpa [Progress.tokens] using (tokens_of_run hrun).symm
    · simp at h
  · rintro rfl
    have h := run_tokens e [] []
    simp only [List.append_nil] at h
    simp [ofTokens?, h, place, run]

end Expression

end PicoTime
