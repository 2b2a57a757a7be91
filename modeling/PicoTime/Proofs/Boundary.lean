import PicoTime.Proofs.Breaks
import PicoTime.Proofs.Grammar
import PicoTime.Proofs.LongestMatch

/-!
# Boundaries between Lexemes

A place of a text that no lexeme reaches across: before the first lexeme,
between two, behind the last, or inside the blanks there. Blanks can be put in
at such a place, and the text is cut into the same lexemes as before and so
reads the same.

That is less plain than it sounds. Lexemes may touch, and how far one reaches
is decided by looking at what follows it: the integer `1.` ends at its point
because no digit comes next, and a double ends before an `e` that begins no
exponent. So it has to be shown that a lexeme ends where it did when something
else follows. It does since it is the longest word that any kind has there. A
word is a word whatever follows, so no longer one appears when the text is cut
off at the boundary; and none appears when the text goes on with a blank, since
no word that has begun before a blank reaches across it.

What stands before a boundary is cut with the rest of the text in view. The
lexemes are the same with another rest, as long as that begins with a break.

## Main definitions

* `CutBefore`: The lexemes before a place, with the rest of the text in view.
* `Boundary`: A place of a text that no lexeme reaches across.
* `Boundary.spaced`: The text with blanks put in at a boundary.
* `Lexeme.Begins`: The lexeme that a text begins with.

## Theorems

* `Terminal.first?_break`: A lexeme ends where it did if a break is put behind
  it, or behind what follows it.
* `CutBefore.of_breaks`: Lexemes before a boundary do not depend on the rest.
* `Boundary.cut_spaced`: Blanks at a boundary are passed over.
* `Datum.parse_spaced`: Lexemes are the longest words where they begin, and
  blanks between them change nothing.
-/

namespace PicoTime

/-- What stands before a place of a text is cut into lexemes, with the rest of
    the text in view. No lexeme reaches across the place. -/
inductive CutBefore (rest : List Char) : List Char → List Lexeme → Prop where
  | start : CutBefore rest [] []
  | blank {c : Char} {cs : List Char} {lexemes : List Lexeme} :
      isBlank c → CutBefore rest cs lexemes → CutBefore rest (c :: cs) lexemes
  | lexeme {kind : Terminal} {word cs : List Char} {lexemes : List Lexeme} :
      Terminal.first? (word ++ (cs ++ rest)) = some (kind, cs ++ rest) →
      CutBefore rest cs lexemes → CutBefore rest (word ++ cs) (⟨kind, word⟩ :: lexemes)

/-- A place of a text that no lexeme reaches across. -/
structure Boundary (text : List Char) where
  passed : List Char
  rest : List Char
  before : List Lexeme
  text_eq : text = passed ++ rest
  cut : CutBefore rest passed before

/-- The text with blanks put in at a boundary. -/
def Boundary.spaced {text : List Char} (place : Boundary text) (blanks : List Char) : List Char :=
  place.passed ++ (blanks ++ place.rest)

/-- A text begins with a lexeme. -/
def Lexeme.Begins (lexeme : Lexeme) (cs : List Char) : Prop :=
  ∃ rest, cs = lexeme.text ++ rest ∧ Terminal.first? cs = some (lexeme.terminal, rest)

/-! ## Lexemes before another rest -/

namespace Terminal

/-- A lexeme ends where it did if the text ends somewhere behind it. -/
theorem first?_cut_off (kind : Terminal) (word cs rest : List Char)
    (h : first? (word ++ (cs ++ rest)) = some (kind, cs ++ rest)) :
    first? (word ++ cs) = some (kind, cs) := by
  rw [first?_eq_some_iff] at h ⊢
  -- What the shorter text begins with, the longer text begins with as well.
  have hlonger (other : List Char) (hother : other <+: word ++ cs) :
      other <+: word ++ (cs ++ rest) := by
    rw [← List.append_assoc]
    exact hother.trans (List.prefix_append _ rest)
  exact ⟨List.prefix_append word cs, h.accepts,
    fun other hother => h.le other (hlonger other hother),
    fun kind' hne other hother => h.lt kind' hne other (hlonger other hother)⟩

theorem first?_breaks (cs rest : List Char) (hcs : cs ≠ []) (hrest : Breaks rest) :
    first? (cs ++ rest) = beyond rest (first? cs) := by
  rw [← Token.terminal_first?, ← Token.terminal_first?, Token.first?_breaks cs rest hcs hrest]
  rcases Token.first? cs with _ | read <;> rfl

/-- A lexeme ends where it did if the text goes on with a break somewhere
    behind it. -/
theorem first?_break (kind : Terminal) (word cs rest new : List Char) (hnew : Breaks new)
    (h : first? (word ++ (cs ++ rest)) = some (kind, cs ++ rest)) :
    first? (word ++ (cs ++ new)) = some (kind, cs ++ new) := by
  have hcut := first?_cut_off kind word cs rest h
  have hne : word ++ cs ≠ [] := by
    intro hnil
    rw [hnil] at hcut
    cases hcut
  rw [← List.append_assoc, first?_breaks _ new hne hnew, hcut]
  rfl

end Terminal

namespace CutBefore

variable {rest cs : List Char} {lexemes : List Lexeme}

/-- Lexemes before a boundary do not depend on the rest of the text. -/
theorem of_breaks (h : CutBefore rest cs lexemes) (new : List Char) (hnew : Breaks new) :
    CutBefore new cs lexemes := by
  induction h with
  | start => exact .start
  | blank hblank _ ih => exact .blank hblank ih
  | lexeme hfirst _ ih => exact .lexeme (Terminal.first?_break _ _ _ _ new hnew hfirst) ih

/-- The lexemes before a place and those of the rest are the lexemes of the
    text. -/
theorem cut_append (h : CutBefore rest cs lexemes) (more : List Lexeme) (hmore : Cut rest more) :
    Cut (cs ++ rest) (lexemes ++ more) := by
  induction h with
  | start => exact hmore
  | blank hblank _ ih => exact .blank hblank ih
  | lexeme hfirst _ ih =>
      rw [List.append_assoc]
      exact .lexeme hfirst ih

end CutBefore

namespace Cut

/-- A text is cut in one way. -/
theorem unique {cs : List Char} {lexemes more : List Lexeme} (h : Cut cs lexemes)
    (h' : Cut cs more) : lexemes = more := by
  rcases Token.exists_all?_of_cut cs lexemes h with ⟨ts, hts, rfl⟩
  rcases Token.exists_all?_of_cut cs more h' with ⟨us, hus, rfl⟩
  rw [Option.some.inj (hts.symm.trans hus)]

theorem of_blank {c : Char} {cs : List Char} {lexemes : List Lexeme} (hblank : isBlank c)
    (h : Cut (c :: cs) lexemes) : Cut cs lexemes := by
  rcases Token.exists_all?_of_cut _ lexemes h with ⟨ts, hts, rfl⟩
  rw [Token.all?_blank c cs hblank] at hts
  exact (Token.cut_of_all? cs ts hts).1

theorem of_lexeme {kind : Terminal} {word rest : List Char} {lexemes : List Lexeme}
    (hfirst : Terminal.first? (word ++ rest) = some (kind, rest))
    (h : Cut (word ++ rest) lexemes) : ∃ more, lexemes = ⟨kind, word⟩ :: more ∧ Cut rest more := by
  rcases Token.exists_all?_of_cut _ lexemes h with ⟨ts, hts, rfl⟩
  rcases Token.exists_of_terminal_first? word rest kind hfirst with ⟨t, ht, hlexeme⟩
  rw [Token.all?_of_first? _ rest t ht] at hts
  rcases Option.map_eq_some_iff.mp hts with ⟨us, hus, rfl⟩
  exact ⟨us.map Token.lexeme, by rw [List.map_cons, hlexeme], (Token.cut_of_all? rest us hus).1⟩

/-- What stands behind a place is cut into the lexemes that are left. -/
theorem of_cutBefore {rest cs : List Char} {before lexemes : List Lexeme}
    (hbefore : CutBefore rest cs before) (h : Cut (cs ++ rest) lexemes) :
    ∃ after, lexemes = before ++ after ∧ Cut rest after := by
  induction hbefore generalizing lexemes with
  | start => exact ⟨lexemes, rfl, h⟩
  | blank hblank _ ih => exact ih (of_blank hblank h)
  | lexeme hfirst _ ih =>
      rw [List.append_assoc] at h
      rcases of_lexeme hfirst h with ⟨more, rfl, hmore⟩
      rcases ih hmore with ⟨after, rfl, hafter⟩
      exact ⟨after, rfl, hafter⟩

/-- Blanks in front of a text are passed over. -/
theorem blanks_append {cs : List Char} {lexemes : List Lexeme} (h : Cut cs lexemes)
    (blanks : List Char) (hblanks : ∀ c ∈ blanks, isBlank c) : Cut (blanks ++ cs) lexemes := by
  induction blanks with
  | nil => exact h
  | cons c blanks ih =>
      rcases List.forall_mem_cons.mp hblanks with ⟨hc, hblanks⟩
      exact .blank hc (ih hblanks)

end Cut

namespace Boundary

variable {text : List Char}

/-- Before any of the lexemes of a text there is a boundary, where the lexeme
    begins, and there is one behind all of them. -/
theorem exists_of_cut {lexemes : List Lexeme} (h : Cut text lexemes) (before after : List Lexeme)
    (hsplit : lexemes = before ++ after) :
    ∃ place : Boundary text, place.before = before ∧ Cut place.rest after
      ∧ ∀ lexeme ∈ after.head?, lexeme.Begins place.rest := by
  induction h generalizing before with
  | done =>
      rcases List.append_eq_nil_iff.mp hsplit.symm with ⟨rfl, rfl⟩
      exact ⟨⟨[], [], [], rfl, .start⟩, rfl, .done, fun lexeme hmem => by cases hmem⟩
  | @blank c cs lexemes hblank _ ih =>
      rcases ih before hsplit with ⟨⟨passed, rest, _, rfl, hcut⟩, rfl, hafter, hbegins⟩
      exact ⟨⟨c :: passed, rest, _, rfl, .blank hblank hcut⟩, rfl, hafter, hbegins⟩
  | @lexeme kind word rest lexemes hfirst hrest ih =>
      cases before with
      | nil =>
          rw [List.nil_append] at hsplit
          rw [← hsplit]
          refine ⟨⟨[], word ++ rest, [], rfl, .start⟩, rfl, .lexeme hfirst hrest, ?_⟩
          intro lexeme hmem
          rw [← Option.some.inj hmem]
          exact ⟨rest, rfl, hfirst⟩
      | cons first before =>
          rcases List.cons.inj hsplit with ⟨rfl, htail⟩
          rcases ih before htail with ⟨⟨passed, rest, _, rfl, hcut⟩, rfl, hafter, hbegins⟩
          exact ⟨⟨word ++ passed, rest, _, (List.append_assoc _ _ _).symm, .lexeme hfirst hcut⟩,
            rfl, hafter, hbegins⟩

/-- Blanks at a boundary are passed over. -/
theorem cut_spaced (place : Boundary text) (blanks : List Char) (lexemes : List Lexeme)
    (hblanks : ∀ c ∈ blanks, isBlank c) (h : Cut text lexemes) :
    Cut (place.spaced blanks) lexemes := by
  rw [place.text_eq] at h
  rcases Cut.of_cutBefore place.cut h with ⟨after, rfl, hafter⟩
  have hbefore : CutBefore (blanks ++ place.rest) place.passed place.before := by
    cases blanks with
    | nil => exact place.cut
    | cons c blanks =>
        refine place.cut.of_breaks _ (breaks_cons c _ ?_)
        rw [isBreak, hblanks c List.mem_cons_self]
        rfl
  exact hbefore.cut_append after (hafter.blanks_append blanks hblanks)

end Boundary

/-! ## Reading -/

namespace Datum

/-- What a text reads as depends on its lexemes only. -/
theorem parse_eq_ok_of_cut (text other : String) (lexemes : List Lexeme) (d : Datum)
    (htext : Cut text.toList lexemes) (hother : Cut other.toList lexemes)
    (h : parse text = .ok d) : parse other = .ok d := by
  rcases (parse_eq_ok_iff text d).mp h with ⟨e, he, hdatum⟩
  rcases (Expression.of_iff e.tree text).mpr ⟨e, he, rfl⟩ with ⟨more, hmore, hyields⟩
  rw [hmore.unique htext] at hyields
  -- The same derivation is one of the other text.
  rcases (Expression.of_iff e.tree other).mp ⟨lexemes, hother, hyields⟩ with ⟨e', he', htree⟩
  refine (parse_eq_ok_iff other d).mpr ⟨e', he', ?_⟩
  rw [e'.datum_eq_ok_iff (e'.wellFormed_of_ofText? other he'), htree,
    ← e.datum_eq_ok_iff (e.wellFormed_of_ofText? text he)]
  exact hdatum

/-- A text that reads is cut into lexemes with a boundary before each and one
    behind them all. Where a lexeme begins it is the longest word that any kind
    has there. Blanks put in at a boundary leave the lexemes and the value as
    they are. -/
theorem parse_spaced (text : String) (d : Datum) (h : parse text = .ok d) :
    ∃ lexemes, Cut text.toList lexemes
      ∧ (∀ before after, lexemes = before ++ after → ∃ place : Boundary text.toList,
        place.before = before ∧ Cut place.rest after
          ∧ ∀ lexeme ∈ after.head?, lexeme.Begins place.rest)
      ∧ ∀ place : Boundary text.toList,
        (∀ lexeme : Lexeme, lexeme.Begins place.rest →
          lexeme.terminal.IsLongest lexeme.text place.rest)
        ∧ ∀ blanks, (∀ c ∈ blanks, isBlank c) → Cut (place.spaced blanks) lexemes
          ∧ parse (String.ofList (place.spaced blanks)) = .ok d := by
  rcases (parse_eq_ok_iff text d).mp h with ⟨e, he, -⟩
  rcases (Expression.of_iff e.tree text).mpr ⟨e, he, rfl⟩ with ⟨lexemes, hcut, -⟩
  refine ⟨lexemes, hcut, Boundary.exists_of_cut hcut, fun place => ⟨?_, fun blanks hblanks => ?_⟩⟩
  · rintro ⟨kind, word⟩ ⟨rest, htext, hfirst⟩
    rw [htext] at hfirst ⊢
    exact (Terminal.first?_eq_some_iff kind word rest).mp hfirst
  · have hspaced := place.cut_spaced blanks lexemes hblanks hcut
    refine ⟨hspaced, parse_eq_ok_of_cut text _ lexemes d hcut ?_ h⟩
    rw [String.toList_ofList]
    exact hspaced

/-- Blanks between a name and an integer that touch. Where the name begins, a
    double and an integer would end sooner. -/
theorem parse_spaced_touching :
    parse "(1.5e+INF-2 . 1.)" = .ok (.dotted (.float (.infinite false)) [.int (-2)] (.int 1))
      ∧ Terminal.special.IsLongest "1.5e+INF".toList "1.5e+INF-2 . 1.)".toList
      ∧ parse "(1.5e+INF \t-2 . 1.)"
        = .ok (.dotted (.float (.infinite false)) [.int (-2)] (.int 1))
      ∧ ∃ lexemes, Cut "(1.5e+INF-2 . 1.)".toList lexemes
        ∧ Cut "(1.5e+INF \t-2 . 1.)".toList lexemes := by
  have hread : parse "(1.5e+INF-2 . 1.)"
      = .ok (.dotted (.float (.infinite false)) [.int (-2)] (.int 1)) := by cbv
  rcases parse_spaced _ _ hread with ⟨lexemes, hcut, -, hplaces⟩
  -- The name and what is behind it, each with a boundary before it.
  let name : Boundary "(1.5e+INF-2 . 1.)".toList :=
    ⟨['('], "1.5e+INF-2 . 1.)".toList, [⟨.opening, ['(']⟩], rfl,
      @CutBefore.lexeme _ .opening ['('] [] [] rfl .start⟩
  let behind : Boundary "(1.5e+INF-2 . 1.)".toList :=
    ⟨"(1.5e+INF".toList, "-2 . 1.)".toList, [⟨.opening, ['(']⟩, ⟨.special, "1.5e+INF".toList⟩], rfl,
      @CutBefore.lexeme _ .opening ['('] _ _ rfl
        (@CutBefore.lexeme _ .special "1.5e+INF".toList [] [] rfl .start)⟩
  have hbegins : (Lexeme.mk .special "1.5e+INF".toList).Begins name.rest :=
    ⟨"-2 . 1.)".toList, rfl, by decide⟩
  have htext : behind.spaced [' ', '\t'] = "(1.5e+INF \t-2 . 1.)".toList := rfl
  have hblanks : ∀ c ∈ [' ', '\t'], isBlank c := List.all_eq_true.mp rfl
  rcases (hplaces behind).2 [' ', '\t'] hblanks with ⟨hspaced, hreread⟩
  rw [htext] at hspaced hreread
  rw [String.ofList_toList] at hreread
  exact ⟨hread, (hplaces name).1 _ hbegins, hreread, lexemes, hcut, hspaced⟩

end Datum

end PicoTime
