import PicoTime.Expression.Tokens
import PicoTime.Proofs.AtomText
import PicoTime.Proofs.Pattern

/-!
# Terminals

The kinds of tokens with the pattern of each, and the order in which they are
tried at a place of a text. The readings of tokens scan a text without going
back, and here they are compared with the patterns: a reading applies exactly
where its pattern matches, and leaves what the match leaves.

Only two repetitions of a pattern need an argument. Digits before a point, a
mark or an exponent end where the digits end, since nothing of these begins
with a digit. Digits before something optional end there as well, since what
is optional can be left out.

## Main definitions

* `Terminal`: The kinds of tokens.
* `Terminal.pattern`: The regular expression of a kind.
* `Terminal.order`: The order in which the kinds are tried.
* `Terminal.first?`: The first kind that matches, and what the match leaves.

## Theorems

* `Pattern.rests_several_seq`, `Pattern.rest?_several_optional`: Digits are
  matched as they are scanned.
* `Terminal.rest?_special`, `Terminal.rest?_float`, `Terminal.rest?_int`: The
  readings of atoms agree with their patterns.
* `Token.terminal_first?`: The first token is the first kind that matches.
-/

namespace PicoTime

/-- The kinds of tokens. -/
inductive Terminal where
  | special
  | nil
  | float
  | int
  | dot
  | opening
  | closing
  deriving DecidableEq

namespace Terminal

/-- Whether a character is a sign. -/
def isSign (c : Char) : Bool :=
  c = '+' || c = '-'

/-- `[+-]?` -/
def sign : Pattern :=
  .optional (.one isSign)

/-- `[eE][+-]?\d+` -/
def exponent : Pattern :=
  .seq (.one fun c => c = 'e' || c = 'E') (.seq sign (.several isDigit))

/-- The regular expression of a kind of tokens. -/
def pattern : Terminal → Pattern
  -- `[+-]?\d+\.\d+e\+(INF|NaN)`
  | special =>
    .seq sign (.seq (.several isDigit) (.seq (.word ['.']) (.seq (.several isDigit)
      (.seq (.word ['e', '+']) (.either (.word ['I', 'N', 'F']) (.word ['N', 'a', 'N']))))))
  | nil => .word ['n', 'i', 'l']
  -- `[+-]?(\d*\.\d+([eE][+-]?\d+)?|\d+[eE][+-]?\d+)`
  | float =>
    .seq sign (.either
      (.seq (.many isDigit) (.seq (.word ['.'])
        (.seq (.several isDigit) (.optional exponent))))
      (.seq (.several isDigit) exponent))
  -- `[+-]?\d+\.?`
  | int => .seq sign (.seq (.several isDigit) (.optional (.word ['.'])))
  | dot => .word ['.']
  | opening => .word ['(']
  | closing => .word [')']

/-- The kinds of tokens in the order they are tried. -/
def order : List Terminal :=
  [special, nil, float, int, dot, opening, closing]

/-- The first kind that matches at the beginning of a text, and what the
    match leaves. -/
def first? (cs : List Char) : Option (Terminal × List Char) :=
  order.findSome? fun terminal => (terminal.pattern.rest? cs).map fun rest => (terminal, rest)

end Terminal

/-! ## Scanning and matching -/

theorem someDigits?_cons (c : Char) (cs : List Char) :
    someDigits? (c :: cs)
      = if isDigit c then some (c :: cs.takeWhile isDigit, cs.dropWhile isDigit) else none := by
  by_cases h : isDigit c
  · simp only [someDigits?, takeDigits, List.takeWhile_cons_of_pos h,
      List.dropWhile_cons_of_pos h, if_pos h]
    rfl
  · simp only [someDigits?, takeDigits, List.takeWhile_cons_of_neg h, if_neg h]
    rfl

namespace Pattern

/-- Digits before something that begins with none are matched as they are
    scanned. -/
theorem rests_several_seq (b : Pattern) (hb : b.FailsOn isDigit) (cs : List Char) :
    (seq (several isDigit) b).rests cs
      = (someDigits? cs).elim [] fun scanned => b.rests scanned.2 := by
  rw [several, rests_seq_assoc]
  cases cs with
  | nil => rfl
  | cons c cs =>
      rw [someDigits?_cons, rests_seq, rests_one]
      by_cases h : isDigit c
      · rw [if_pos h, if_pos h, List.flatMap_singleton, rests_many_seq isDigit b hb]
        rfl
      · rw [if_neg h, if_neg h]
        rfl

/-- Digits before something that may be left out are matched as they are
    scanned. -/
theorem rest?_several_optional (b : Pattern) (cs : List Char) :
    (seq (several isDigit) (optional b)).rest? cs
      = (someDigits? cs).bind fun scanned => (optional b).rest? scanned.2 := by
  rw [several, rest?, rests_seq_assoc]
  cases cs with
  | nil => rfl
  | cons c cs =>
      rw [someDigits?_cons, rests_seq, rests_one]
      by_cases h : isDigit c
      · -- The longest run always goes on, so no shorter one is tried.
        have hrest := rest?_optional b (cs.dropWhile isDigit)
        have hmany := rest?_many_seq isDigit (optional b) cs _ hrest
        rw [if_pos h, if_pos h, List.flatMap_singleton, Option.bind_some, hrest]
        exact hmany
      · rw [if_neg h, if_neg h]
        rfl

/-- Digits at the end of a pattern are matched as they are scanned. -/
theorem rest?_several (cs : List Char) :
    (several isDigit).rest? cs = (someDigits? cs).map Prod.snd := by
  cases cs with
  | nil => rfl
  | cons c cs =>
      rw [someDigits?_cons, several, rest?, rests_seq, rests_one]
      by_cases h : isDigit c
      · rcases manyRests_eq isDigit cs with ⟨more, hmore, -⟩
        rw [if_pos h, if_pos h, List.flatMap_singleton, rests_many, hmore]
        rfl
      · rw [if_neg h, if_neg h]
        rfl

theorem rests_sign (b : Pattern) (c : Char) (cs : List Char) :
    (seq Terminal.sign b).rests (c :: cs)
      = (if Terminal.isSign c then b.rests cs else []) ++ b.rests (c :: cs) := by
  rw [Terminal.sign, optional, rests_seq, rests_either, rests_one, rests_empty,
    List.flatMap_append, List.flatMap_singleton]
  by_cases h : Terminal.isSign c
  · rw [if_pos h, if_pos h, List.flatMap_singleton]
  · rw [if_neg h, if_neg h, List.flatMap_nil]

/-- A sign before something that begins with none is matched as it is
    scanned. -/
theorem rests_sign_seq (b : Pattern) (hb : b.FailsOn Terminal.isSign) (cs : List Char) :
    (seq Terminal.sign b).rests cs = b.rests (takeSign cs).2 := by
  unfold takeSign
  split
  -- With the sign left out, the pattern would have to begin with it.
  · next cs => rw [rests_sign, if_pos (by decide), hb '+' cs (by decide), List.append_nil]
  · next cs => rw [rests_sign, if_pos (by decide), hb '-' cs (by decide), List.append_nil]
  · next hplus hminus =>
    cases cs with
    | nil => exact List.flatMap_singleton _ _
    | cons c cs =>
        have hsign : ¬ Terminal.isSign c = true := by
          simp only [Terminal.isSign, Bool.or_eq_true, decide_eq_true_eq]
          rintro (rfl | rfl)
          · exact hplus cs rfl
          · exact hminus cs rfl
        rw [rests_sign, if_neg hsign, List.nil_append]

/-- A word at the end of a pattern is matched as it is scanned. -/
theorem rest?_word (w cs : List Char) : (word w).rest? cs = afterWord? w cs := by
  rw [rest?, rests_word, Option.head?_toList]

/-- A word begins with its first letter. -/
theorem failsOn_letter (kind : Char → Bool) (c : Char) (w : List Char) (h : kind c = false) :
    (word (c :: w)).FailsOn kind := by
  refine failsOn_seq _ _ _ (failsOn_one _ _ fun d hd => ?_)
  rw [decide_eq_false_iff_not]
  rintro rfl
  rw [h] at hd
  exact absurd hd (by decide)

theorem failsOn_word (kind : Char → Bool) (c : Char) (w : List Char) (b : Pattern)
    (h : kind c = false) : (seq (word (c :: w)) b).FailsOn kind :=
  failsOn_seq _ _ _ (failsOn_letter kind c w h)

theorem isDigit_of_isSign (c : Char) (h : Terminal.isSign c) : isDigit c = false := by
  simp only [Terminal.isSign, Bool.or_eq_true, decide_eq_true_eq] at h
  rcases h with rfl | rfl <;> decide

/-- Nothing that begins with digits begins with a sign. -/
theorem failsOn_sign_several : (several isDigit).FailsOn Terminal.isSign :=
  failsOn_seq _ _ _ (failsOn_one _ _ isDigit_of_isSign)

end Pattern

namespace Terminal

open Pattern

theorem afterWord?_two (v w cs : List Char) :
    afterWord? (v ++ w) cs = (afterWord? v cs).bind (afterWord? w) := by
  induction v generalizing cs with
  | nil => rfl
  | cons c v ih =>
      cases cs with
      | nil => rfl
      | cons d cs =>
          rw [List.cons_append, afterWord?, afterWord?]
          by_cases h : c = d
          · rw [if_pos h, if_pos h, ih]
          · rw [if_neg h, if_neg h]
            rfl

/-- Names of infinities and NaNs are read as their pattern matches. -/
theorem rest?_special (cs : List Char) :
    special.pattern.rest? cs = (Atom.special? cs).map Prod.snd := by
  rw [rest?, pattern, rests_sign_seq _ (failsOn_seq _ _ _ failsOn_sign_several),
    rests_several_seq _ (failsOn_word _ '.' _ _ (by decide)), Atom.special?]
  rcases takeSign cs with ⟨sign, cs⟩
  simp only [Option.bind_eq_bind]
  rcases someDigits? cs with _ | ⟨whole, cs⟩
  · rfl
  rw [Option.elim_some, rests_word_seq, Option.bind_some]
  simp only []
  rcases afterWord? ['.'] cs with _ | cs
  · rfl
  rw [Option.elim_some, rests_several_seq _ (failsOn_word _ 'e' _ _ (by decide)),
    Option.bind_some]
  rcases someDigits? cs with _ | ⟨fraction, cs⟩
  · rfl
  have hinfinity := afterWord?_two ['e', '+'] ['I', 'N', 'F'] cs
  have hnan := afterWord?_two ['e', '+'] ['N', 'a', 'N'] cs
  simp only [List.cons_append, List.nil_append] at hinfinity hnan
  rw [Option.elim_some, rests_word_seq, Option.bind_some, infinityMark, nanMark, hinfinity, hnan]
  -- Both marks begin alike, and their letters are alternatives.
  rcases afterWord? ['e', '+'] cs with _ | cs
  · rfl
  rw [Option.elim_some, Option.bind_some, Option.bind_some]
  change (either _ _).rest? cs = _
  rw [rest?_either, rest?_word, rest?_word]
  rcases afterWord? ['I', 'N', 'F'] cs with _ | rest
  · rcases afterWord? ['N', 'a', 'N'] cs with _ | rest <;> rfl
  · rfl

/-- Exponents are read as their pattern matches. -/
theorem rest?_exponent (cs : List Char) : exponent.rest? cs = (exponent? cs).map Prod.snd := by
  rw [exponent, exponent?.eq_def]
  cases cs with
  | nil => rfl
  | cons letter cs =>
      rw [rest?, rests_seq, rests_one]
      by_cases h : letter = 'e' ∨ letter = 'E'
      · have hletter : (decide (letter = 'e') || decide (letter = 'E')) = true := by
          rw [Bool.or_eq_true, decide_eq_true_eq, decide_eq_true_eq]
          exact h
        rw [if_pos hletter, List.flatMap_singleton, rests_sign_seq _ failsOn_sign_several]
        simp only [if_pos h]
        rcases takeSign cs with ⟨sign, cs⟩
        have hdigits := rest?_several cs
        simp only [rest?] at hdigits
        rw [hdigits, Option.map_map]
        rfl
      · have hletter : ¬ (decide (letter = 'e') || decide (letter = 'E')) = true := by
          rw [Bool.or_eq_true, decide_eq_true_eq, decide_eq_true_eq]
          exact h
        simp only [if_neg hletter, if_neg h]
        rfl

/-- Digits around a point are matched as they are scanned. -/
theorem rest?_pointed (cs : List Char) :
    (seq (many isDigit) (seq (word ['.']) (seq (several isDigit) (optional exponent)))).rest? cs
      = (afterWord? ['.'] (cs.dropWhile isDigit)).bind fun cs =>
        (someDigits? cs).map fun scanned =>
          ((exponent? scanned.2).map Prod.snd).getD scanned.2 := by
  rw [rest?, rests_many_seq _ _ (failsOn_word _ '.' _ _ (by decide)), rests_word_seq]
  rcases afterWord? ['.'] (cs.dropWhile isDigit) with _ | cs
  · rfl
  have hdigits := rest?_several_optional exponent cs
  rw [rest?] at hdigits
  rw [Option.elim_some, Option.bind_some, hdigits]
  rcases someDigits? cs with _ | ⟨fraction, cs⟩
  · rfl
  rw [Option.bind_some, Option.map_some, rest?_optional, rest?_exponent]

/-- No exponent begins with a digit. -/
theorem failsOn_exponent : exponent.FailsOn isDigit := by
  refine failsOn_seq _ _ _ (failsOn_one _ _ fun c hc => ?_)
  by_contra h
  rw [Bool.not_eq_false, Bool.or_eq_true, decide_eq_true_eq, decide_eq_true_eq] at h
  rcases h with rfl | rfl <;> exact absurd hc (by decide)

/-- Digits without a point are matched as they are scanned. -/
theorem rest?_unpointed (cs : List Char) :
    (seq (several isDigit) exponent).rest? cs
      = (someDigits? cs).bind fun scanned => (exponent? scanned.2).map Prod.snd := by
  rw [rest?, rests_several_seq _ failsOn_exponent]
  rcases someDigits? cs with _ | ⟨whole, cs⟩
  · rfl
  exact rest?_exponent cs

/-- A double has one sign at most. -/
theorem failsOn_unsigned : (either
    (seq (many isDigit) (seq (word ['.']) (seq (several isDigit) (optional exponent))))
    (seq (several isDigit) exponent)).FailsOn isSign := by
  apply failsOn_either
  · exact failsOn_many_seq _ _ _ isDigit_of_isSign (failsOn_word _ '.' _ _ (by decide))
  · exact failsOn_seq _ _ _ failsOn_sign_several

/-- Doubles are read as their pattern matches. -/
theorem rest?_float (cs : List Char) :
    float.pattern.rest? cs = (Atom.float? cs).map Prod.snd := by
  rw [rest?, pattern, rests_sign_seq _ failsOn_unsigned, Atom.float?]
  rcases takeSign cs with ⟨sign, cs⟩
  change (either _ _).rest? cs = _
  rcases hscan : takeDigits cs with ⟨whole, after⟩
  have hafter : cs.dropWhile isDigit = after := congrArg Prod.snd hscan
  have hdigits : someDigits? cs = if whole.isEmpty then none else some (whole, after) := by
    simp only [someDigits?, hscan]
  rw [rest?_either, rest?_pointed, rest?_unpointed, hafter, hdigits]
  simp only [hscan]
  rcases hpoint : afterWord? ['.'] after with _ | rest
  · -- Without a point the first alternative fails.
    by_cases hwhole : whole.isEmpty
    · simp only [if_pos hwhole]
      rfl
    · simp only [if_neg hwhole, Option.map_map]
      rfl
  · -- Behind a point there is no exponent, so the second alternative fails.
    have hnone : exponent? after = none := by
      rw [eq_of_afterWord? hpoint]
      rfl
    have hsecond : ((if whole.isEmpty then none else some (whole, after)).bind
        fun scanned => (exponent? scanned.2).map Prod.snd) = none := by
      by_cases hwhole : whole.isEmpty
      · rw [if_pos hwhole, Option.bind_none]
      · rw [if_neg hwhole, Option.bind_some, hnone, Option.map_none]
    rw [hsecond, Option.or_none, Option.bind_some]
    simp only []
    rcases someDigits? rest with _ | ⟨fraction, rest⟩
    · rfl
    · simp only [Option.map_some]
      rcases exponent? rest with _ | ⟨exponent, rest⟩ <;> rfl

/-- Integers are read as their pattern matches. -/
theorem rest?_int (cs : List Char) : int.pattern.rest? cs = (Atom.int? cs).map Prod.snd := by
  rw [rest?, pattern, rests_sign_seq _ (failsOn_seq _ _ _ failsOn_sign_several), Atom.int?]
  rcases takeSign cs with ⟨sign, cs⟩
  have hdigits := rest?_several_optional (word ['.']) cs
  rw [rest?] at hdigits
  simp only [hdigits]
  rcases someDigits? cs with _ | ⟨digits, cs⟩
  · rfl
  simp only [Option.bind_some, Option.map_some, rest?_optional, rest?_word]
  rcases afterWord? ['.'] cs with _ | rest <;> rfl

end Terminal

/-! ## Readings and kinds -/

/-- The kind of token an atom is. -/
def Atom.terminal : Atom → Terminal
  | .nil => .nil
  | .int _ _ _ => .int
  | .fixed _ _ _ _ | .scaled _ _ _ => .float
  | .infinity _ _ _ | .nan _ _ _ => .special

/-- The kind of a token. -/
def Token.terminal : Token → Terminal
  | .atom a => a.terminal
  | .dot => .dot
  | .opening => .opening
  | .closing => .closing

namespace Atom

theorem terminal_of_nil? (cs rest : List Char) (a : Atom) (h : nil? cs = some (a, rest)) :
    a.terminal = .nil := by
  rcases Option.map_eq_some_iff.mp h with ⟨_, -, he⟩
  rw [← (Prod.mk.inj he).1, terminal]

theorem terminal_of_special? (cs rest : List Char) (a : Atom)
    (h : special? cs = some (a, rest)) : a.terminal = .special := by
  simp only [special?, Option.bind_eq_bind, Option.bind_eq_some_iff, Prod.exists] at h
  rcases h with ⟨_, _, _, _, _, _, _, _, h⟩
  split at h
  · rw [← (Prod.mk.inj (Option.some.inj h)).1, terminal]
  · rcases Option.bind_eq_some_iff.mp h with ⟨_, -, he⟩
    rw [← (Prod.mk.inj (Option.some.inj he)).1, terminal]

theorem terminal_of_float? (cs rest : List Char) (a : Atom) (h : float? cs = some (a, rest)) :
    a.terminal = .float := by
  simp only [float?] at h
  split at h
  · rcases Option.map_eq_some_iff.mp h with ⟨_, -, he⟩
    split at he <;> rw [← (Prod.mk.inj he).1, terminal]
  · split at h
    · exact absurd h (by simp only [reduceCtorEq, not_false_eq_true])
    · rcases Option.map_eq_some_iff.mp h with ⟨_, -, he⟩
      rw [← (Prod.mk.inj he).1, terminal]

theorem terminal_of_int? (cs rest : List Char) (a : Atom) (h : int? cs = some (a, rest)) :
    a.terminal = .int := by
  simp only [int?] at h
  rcases Option.map_eq_some_iff.mp h with ⟨_, -, he⟩
  split at he <;> rw [← (Prod.mk.inj he).1, terminal]

end Atom

namespace Token

/-- The reading of a token and the pattern of a kind apply alike: the reading
    gives tokens of that kind, and leaves what a match leaves. -/
def AgreesWith (reader : List Char → Option (Token × List Char)) (kind : Terminal)
    (cs : List Char) : Prop :=
  (reader cs).map (fun read => (read.1.terminal, read.2))
    = (kind.pattern.rest? cs).map fun rest => (kind, rest)

theorem agreesWith_ofAtom? (reader : List Char → Option (Atom × List Char)) (kind : Terminal)
    (cs : List Char) (hkind : ∀ rest a, reader cs = some (a, rest) → a.terminal = kind)
    (hrest : kind.pattern.rest? cs = (reader cs).map Prod.snd) :
    AgreesWith (ofAtom? reader) kind cs := by
  rw [AgreesWith, hrest, ofAtom?]
  rcases hread : reader cs with _ | ⟨a, rest⟩
  · rfl
  · simp only [Option.map_some, terminal, hkind rest a hread]

theorem agreesWith_literal? (token : Token) (cs : List Char)
    (hpattern : token.terminal.pattern = .word token.text) :
    AgreesWith (literal? token) token.terminal cs := by
  rw [AgreesWith, hpattern, Pattern.rest?_word, literal?]
  rcases afterWord? token.text cs with _ | rest <;> rfl

theorem agreesWith_readers (cs : List Char) :
    List.Forall₂ (fun reader kind => AgreesWith reader kind cs) readers Terminal.order := by
  refine .cons ?_ (.cons ?_ (.cons ?_ (.cons ?_ (.cons ?_ (.cons ?_ (.cons ?_ .nil))))))
  · exact agreesWith_ofAtom? _ _ cs (Atom.terminal_of_special? cs) (Terminal.rest?_special cs)
  · refine agreesWith_ofAtom? _ _ cs (Atom.terminal_of_nil? cs) ?_
    rw [Terminal.pattern, Pattern.rest?_word, Atom.nil?, Option.map_map, nilWord]
    exact Option.map_id'.symm
  · exact agreesWith_ofAtom? _ _ cs (Atom.terminal_of_float? cs) (Terminal.rest?_float cs)
  · exact agreesWith_ofAtom? _ _ cs (Atom.terminal_of_int? cs) (Terminal.rest?_int cs)
  · exact agreesWith_literal? .dot cs rfl
  · exact agreesWith_literal? .opening cs rfl
  · exact agreesWith_literal? .closing cs rfl

/-- The first token of a text is of the first kind that matches, and leaves
    what the match leaves. -/
theorem terminal_first? (cs : List Char) :
    (first? cs).map (fun read => (read.1.terminal, read.2)) = Terminal.first? cs := by
  rw [first?_eq_findSome?, Terminal.first?]
  -- Readings and kinds are tried in the same order, and each pair agrees.
  have hall := agreesWith_readers cs
  generalize readers = rs at hall
  generalize Terminal.order = kinds at hall
  induction hall with
  | nil => rfl
  | @cons reader kind rs kinds hagree _ ih =>
      rw [List.findSome?_cons, List.findSome?_cons, ← hagree]
      rcases reader cs with _ | read
      · exact ih
      · rfl

-- A point belongs to an integer only if no digit follows, and a name has to be
-- there to its last letter.
example : Terminal.first? "1.-5".toList = some (.int, "-5".toList) := by decide

example : Terminal.first? "1.5e+IN".toList = some (.float, "e+IN".toList) := by decide

end Token

end PicoTime
