import PicoTime.Proofs.Terminal

/-!
# The Longest Match

The kinds of tokens are tried in an order, and a pattern tries its
alternatives in an order too. Neither asks for length, and yet the first match
of the first kind is always the longest that any kind has at that place. So
the order could be forgotten: a token is known by the words of all kinds, as
the longest of them that stands there.

Two facts make it so, one for each order. Within a pattern the longer match
comes first, since a repetition tries its longest run first, what is optional
is tried before it is left out, and no pattern here has two alternatives that
match at one place. Between kinds, wherever two of them match, the one tried
first matches more: a name goes on where a double ends, a double goes on behind
the digits or the point where an integer ends, and a double that begins with a
point is more than the point.

What a pattern matches does not depend on what follows, only on the word
itself. That is what lengths are compared by, and it also says that a token
which is the longest in a text is so in the beginning of that text.

## Main definitions

* `Pattern.Accepts`: The words of a pattern.
* `Pattern.LongestFirst`: The order of matches is that of their lengths.
* `Terminal.Outruns`: Of two kinds, one matches more wherever both do.
* `Terminal.IsLongest`: The longest word of any kind that a text begins with.

## Theorems

* `Pattern.mem_rests_iff`: What a match takes is a word of the pattern.
* `Terminal.longestFirst_pattern`: All kinds match their longest words first.
* `Terminal.pairwise_outruns`: Kinds are tried in the order of their lengths.
* `Terminal.first?_eq_some_iff`: The first kind that matches is the longest.
-/

namespace PicoTime

namespace Pattern

/-! ## Words of a pattern -/

/-- The words of a pattern. -/
def Accepts : Pattern → List Char → Prop
  | empty, word => word = []
  | one kind, word => ∃ c, kind c ∧ word = [c]
  | many kind, word => ∀ c ∈ word, kind c
  | seq first second, word => ∃ u v, word = u ++ v ∧ first.Accepts u ∧ second.Accepts v
  | either first second, word => first.Accepts word ∨ second.Accepts word

theorem mem_rests_one_iff (kind : Char → Bool) (cs rest : List Char) :
    rest ∈ (one kind).rests cs ↔ ∃ word, cs = word ++ rest ∧ (one kind).Accepts word := by
  constructor
  · intro h
    cases cs with
    | nil => exact absurd h List.not_mem_nil
    | cons c cs =>
        rw [rests_one] at h
        by_cases hc : kind c
        · rw [if_pos hc] at h
          exact ⟨[c], by rw [List.mem_singleton.mp h, List.singleton_append], c, hc, rfl⟩
        · rw [if_neg hc] at h
          exact absurd h List.not_mem_nil
  · rintro ⟨_, rfl, c, hc, rfl⟩
    rw [List.singleton_append, rests_one, if_pos hc]
    exact List.mem_singleton_self rest

/-- A repetition can stop anywhere in its longest run. -/
theorem mem_manyRests_iff (kind : Char → Bool) (cs rest : List Char) :
    rest ∈ manyRests kind cs ↔ ∃ word, cs = word ++ rest ∧ ∀ c ∈ word, kind c := by
  induction cs with
  | nil =>
      rw [manyRests, List.mem_singleton]
      refine ⟨fun h => ⟨[], h.symm, fun _ hc => absurd hc List.not_mem_nil⟩, ?_⟩
      rintro ⟨word, h, -⟩
      exact (List.append_eq_nil_iff.mp h.symm).2
  | cons c cs ih =>
      rw [manyRests]
      constructor
      · intro h
        by_cases hc : kind c
        · rw [if_pos hc, List.mem_append, ih, List.mem_singleton] at h
          rcases h with ⟨word, rfl, hword⟩ | rfl
          · exact ⟨c :: word, rfl, List.forall_mem_cons.mpr ⟨hc, hword⟩⟩
          · exact ⟨[], rfl, fun _ hd => absurd hd List.not_mem_nil⟩
        · rw [if_neg hc, List.mem_singleton] at h
          exact ⟨[], h.symm, fun _ hd => absurd hd List.not_mem_nil⟩
      · rintro ⟨_ | ⟨d, word⟩, h, hword⟩
        · -- Nothing is taken, which is possible in either case.
          rw [← show c :: cs = rest from h]
          by_cases hc : kind c
          · rw [if_pos hc]
            exact List.mem_append_right _ (List.mem_singleton_self _)
          · rw [if_neg hc]
            exact List.mem_singleton_self _
        · rcases List.cons.inj h with ⟨rfl, htail⟩
          rcases List.forall_mem_cons.mp hword with ⟨hc, hword⟩
          rw [if_pos hc]
          exact List.mem_append_left _ (ih.mpr ⟨word, htail, hword⟩)

/-- What a match takes is a word of the pattern, and every word that a text
    begins with can be taken. -/
theorem mem_rests_iff (p : Pattern) (cs rest : List Char) :
    rest ∈ p.rests cs ↔ ∃ word, cs = word ++ rest ∧ p.Accepts word := by
  induction p generalizing cs rest with
  | empty =>
      rw [rests_empty, List.mem_singleton]
      refine ⟨fun h => ⟨[], h.symm, rfl⟩, ?_⟩
      rintro ⟨_, rfl, rfl⟩
      rfl
  | one kind => exact mem_rests_one_iff kind cs rest
  | many kind => exact mem_manyRests_iff kind cs rest
  | seq first second hfirst hsecond =>
      rw [rests_seq, List.mem_flatMap]
      constructor
      · rintro ⟨middle, hmiddle, hrest⟩
        rcases (hfirst cs middle).mp hmiddle with ⟨u, rfl, hu⟩
        rcases (hsecond middle rest).mp hrest with ⟨v, rfl, hv⟩
        exact ⟨u ++ v, (List.append_assoc u v rest).symm, u, v, rfl, hu, hv⟩
      · rintro ⟨_, rfl, u, v, rfl, hu, hv⟩
        exact ⟨v ++ rest, (hfirst _ _).mpr ⟨u, List.append_assoc u v rest, hu⟩,
          (hsecond _ _).mpr ⟨v, rfl, hv⟩⟩
  | either first second hfirst hsecond =>
      rw [rests_either, List.mem_append, hfirst, hsecond, ← exists_or]
      exact exists_congr fun word => and_or_left.symm

/-- What a match leaves is the end of the text. -/
theorem length_le_of_mem_rests (p : Pattern) (cs rest : List Char) (h : rest ∈ p.rests cs) :
    rest.length ≤ cs.length := by
  rcases (mem_rests_iff p cs rest).mp h with ⟨word, rfl, -⟩
  rw [List.length_append]
  exact Nat.le_add_left _ _

/-! ## The order of matches -/

/-- Matches come in the order of their lengths, the longest first. -/
def LongestFirst (p : Pattern) : Prop :=
  ∀ cs, (p.rests cs).Pairwise fun rest more => rest.length ≤ more.length

/-- The match that is taken leaves the least. -/
theorem LongestFirst.length_le {p : Pattern} (hp : p.LongestFirst) (cs rest more : List Char)
    (h : p.rest? cs = some rest) (hmore : more ∈ p.rests cs) : rest.length ≤ more.length := by
  rcases List.head?_eq_some_iff.mp h with ⟨others, hrests⟩
  have hpairwise := hp cs
  rw [hrests] at hpairwise hmore
  rcases List.mem_cons.mp hmore with rfl | hmore
  · exact le_refl _
  · exact List.rel_of_pairwise_cons hpairwise hmore

theorem longestFirst_empty : empty.LongestFirst :=
  fun _ => List.pairwise_singleton _ _

theorem longestFirst_many (kind : Char → Bool) : (many kind).LongestFirst := by
  intro cs
  rw [rests_many]
  induction cs with
  | nil => exact List.pairwise_singleton _ _
  | cons c cs ih =>
      rw [manyRests]
      by_cases hc : kind c
      · rw [if_pos hc]
        refine List.pairwise_append.mpr ⟨ih, List.pairwise_singleton _ _, ?_⟩
        -- Stopping before the first character leaves the whole text.
        intro rest hrest more hmore
        have hle := length_le_of_mem_rests (many kind) cs rest hrest
        rw [List.mem_singleton.mp hmore, List.length_cons]
        omega
      · rw [if_neg hc]
        exact List.pairwise_singleton _ _

theorem longestFirst_one_seq (kind : Char → Bool) (b : Pattern) (hb : b.LongestFirst) :
    (seq (one kind) b).LongestFirst := by
  intro cs
  rw [rests_seq]
  cases cs with
  | nil => exact .nil
  | cons c cs =>
      rw [rests_one]
      by_cases hc : kind c
      · rw [if_pos hc, List.flatMap_singleton]
        exact hb cs
      · rw [if_neg hc]
        exact .nil

theorem longestFirst_word (w : List Char) : (word w).LongestFirst := by
  induction w with
  | nil => exact longestFirst_empty
  | cons c w ih => exact longestFirst_one_seq _ _ ih

theorem longestFirst_word_seq (w : List Char) (b : Pattern) (hb : b.LongestFirst) :
    (seq (word w) b).LongestFirst := by
  intro cs
  rw [rests_word_seq]
  rcases afterWord? w cs with _ | rest
  · exact .nil
  · exact hb rest

theorem longestFirst_many_seq (kind : Char → Bool) (b : Pattern) (hfails : b.FailsOn kind)
    (hb : b.LongestFirst) : (seq (many kind) b).LongestFirst := by
  intro cs
  rw [rests_many_seq kind b hfails]
  exact hb _

theorem longestFirst_several_seq (b : Pattern) (hfails : b.FailsOn isDigit)
    (hb : b.LongestFirst) : (seq (several isDigit) b).LongestFirst := by
  intro cs
  rw [rests_several_seq b hfails]
  rcases someDigits? cs with _ | ⟨digits, rest⟩
  · exact .nil
  · exact hb rest

theorem longestFirst_sign_seq (b : Pattern) (hfails : b.FailsOn Terminal.isSign)
    (hb : b.LongestFirst) : (seq Terminal.sign b).LongestFirst := by
  intro cs
  rw [rests_sign_seq b hfails]
  exact hb _

/-- Alternatives that never match at one place. -/
theorem longestFirst_either (a b : Pattern) (ha : a.LongestFirst) (hb : b.LongestFirst)
    (hapart : ∀ cs, a.rests cs = [] ∨ b.rests cs = []) : (either a b).LongestFirst := by
  intro cs
  rw [rests_either]
  rcases hapart cs with h | h
  · rw [h, List.nil_append]
    exact hb cs
  · rw [h, List.append_nil]
    exact ha cs

/-- Words with different first letters never match at one place. -/
theorem words_apart (c d : Char) (v w : List Char) (h : c ≠ d) (cs : List Char) :
    (word (c :: v)).rests cs = [] ∨ (word (d :: w)).rests cs = [] := by
  rw [rests_word, rests_word]
  cases cs with
  | nil => exact Or.inl rfl
  | cons first cs =>
      rw [afterWord?, afterWord?]
      by_cases hc : c = first
      · have hd : ¬ d = first := fun hd => h (hc.trans hd.symm)
        rw [if_neg hd]
        exact Or.inr rfl
      · rw [if_neg hc]
        exact Or.inl rfl

/-- Only the longest run has a choice about what may follow it, and a shorter
    run leaves more. -/
theorem longestFirst_many_optional (kind : Char → Bool) (b : Pattern) (hfails : b.FailsOn kind)
    (hb : b.LongestFirst) : (seq (many kind) (optional b)).LongestFirst := by
  intro cs
  have hlongest := longestFirst_many kind cs
  rw [rests_many] at hlongest
  rcases manyRests_eq kind cs with ⟨shorter, hmany, hstop⟩
  -- After a shorter run nothing optional is found, and so it is left out.
  have hshorter : shorter.flatMap (optional b).rests = shorter := by
    rw [List.flatMap_congr (g := fun rest => [rest]), List.flatMap_singleton']
    intro rest hrest
    rcases hstop rest hrest with ⟨c, tail, rfl, hc⟩
    rw [optional, rests_either, hfails c tail hc, List.nil_append, rests_empty]
  rw [rests_seq, rests_many, hmany, List.flatMap_cons, hshorter, optional, rests_either,
    rests_empty, List.append_assoc, List.singleton_append]
  rw [hmany] at hlongest
  refine List.pairwise_append.mpr ⟨hb _, hlongest, fun rest hrest more hmore => ?_⟩
  have hle := length_le_of_mem_rests b _ rest hrest
  rcases List.mem_cons.mp hmore with rfl | hmore
  · exact hle
  · exact hle.trans (List.rel_of_pairwise_cons hlongest hmore)

theorem longestFirst_several_optional (b : Pattern) (hfails : b.FailsOn isDigit)
    (hb : b.LongestFirst) : (seq (several isDigit) (optional b)).LongestFirst := by
  intro cs
  rw [several, rests_seq_assoc]
  exact longestFirst_one_seq _ _ (longestFirst_many_optional isDigit b hfails hb) cs

end Pattern

namespace Terminal

open Pattern

/-! ## Kinds of tokens one by one -/

theorem longestFirst_several : (several isDigit).LongestFirst :=
  longestFirst_one_seq _ _ (longestFirst_many isDigit)

theorem longestFirst_exponent : exponent.LongestFirst :=
  longestFirst_one_seq _ _ (longestFirst_sign_seq _ failsOn_sign_several longestFirst_several)

/-- Scanned digits end where the run of digits ends. -/
theorem dropWhile_of_someDigits? (cs digits rest : List Char)
    (h : someDigits? cs = some (digits, rest)) : cs.dropWhile isDigit = rest := by
  cases cs with
  | nil => cases h
  | cons c cs =>
      rw [someDigits?_cons] at h
      by_cases hc : isDigit c
      · rw [if_pos hc, Option.some.injEq, Prod.mk.injEq] at h
        rw [List.dropWhile_cons_of_pos hc, h.2]
      · rw [if_neg hc] at h
        exact absurd h (by simp only [reduceCtorEq, not_false_eq_true])

/-- Digits are followed by a point or by the letter of an exponent. -/
theorem longestFirst_unsigned : (either
    (seq (many isDigit) (seq (word ['.']) (seq (several isDigit) (optional exponent))))
    (seq (several isDigit) exponent)).LongestFirst := by
  refine longestFirst_either _ _ ?_ ?_ fun cs => ?_
  · exact longestFirst_many_seq _ _ (failsOn_word _ '.' _ _ (by decide))
      (longestFirst_word_seq _ _
        (longestFirst_several_optional _ failsOn_exponent longestFirst_exponent))
  · exact longestFirst_several_seq _ failsOn_exponent longestFirst_exponent
  · rw [rests_many_seq _ _ (failsOn_word _ '.' _ _ (by decide)), rests_word_seq,
      rests_several_seq _ failsOn_exponent]
    rcases hpoint : afterWord? ['.'] (cs.dropWhile isDigit) with _ | rest
    · exact Or.inl rfl
    right
    rcases hdigits : someDigits? cs with _ | ⟨digits, more⟩
    · rfl
    have hmore : more = '.' :: rest :=
      (dropWhile_of_someDigits? cs digits more hdigits).symm.trans (eq_of_afterWord? hpoint)
    rw [Option.elim_some, hmore]
    rfl

/-- All kinds match their longest words first. -/
theorem longestFirst_pattern (kind : Terminal) : kind.pattern.LongestFirst := by
  cases kind with
  | special =>
      have hmarks : (either (word ['I', 'N', 'F']) (word ['N', 'a', 'N'])).LongestFirst :=
        longestFirst_either _ _ (longestFirst_word _) (longestFirst_word _)
          (words_apart 'I' 'N' _ _ (by decide))
      exact longestFirst_sign_seq _ (failsOn_seq _ _ _ failsOn_sign_several)
        (longestFirst_several_seq _ (failsOn_word _ '.' _ _ (by decide))
          (longestFirst_word_seq _ _ (longestFirst_several_seq _
            (failsOn_word _ 'e' _ _ (by decide)) (longestFirst_word_seq _ _ hmarks))))
  | float => exact longestFirst_sign_seq _ failsOn_unsigned longestFirst_unsigned
  | int =>
      exact longestFirst_sign_seq _ (failsOn_seq _ _ _ failsOn_sign_several)
        (longestFirst_several_optional _ (failsOn_letter _ '.' [] (by decide))
          (longestFirst_word _))
  | nil | dot | opening | closing => exact longestFirst_word _

end Terminal

/-! ## Two kinds at one place -/

namespace Atom

/-- An integer takes a point behind its digits, whatever follows. -/
theorem int?_pointed (sign : Sign) (digits cs : List Char) (h : IsNumeral digits) :
    int? (sign.text ++ (digits ++ '.' :: cs)) = some (.int sign digits true, cs) := by
  rw [int?_append sign digits _ h (noDigit_cons '.' cs (by decide))]
  rfl

/-- An integer has digits before its point. -/
theorem int?_point (sign : Sign) (cs : List Char) : int? (sign.text ++ '.' :: cs) = none := by
  have hsign := takeSign_append sign ('.' :: cs) (fun c hc => Or.inr (Option.some.inj hc).symm)
  rw [int?, hsign]
  rfl

end Atom

namespace Terminal

open Pattern

/-- Wherever two kinds match, one of them matches more. -/
def Outruns (kind other : Terminal) : Prop :=
  ∀ cs rest more, kind.pattern.rest? cs = some rest → other.pattern.rest? cs = some more →
    rest.length < more.length

/-- A name has digits around its point, and a mark behind them. -/
theorem exists_of_rest?_special (cs rest : List Char) (h : special.pattern.rest? cs = some rest) :
    ∃ (s : Sign) (whole fraction mark : List Char), IsNumeral whole ∧ IsNumeral fraction
      ∧ (mark = infinityMark ∨ mark = nanMark)
      ∧ cs = s.text ++ (whole ++ '.' :: (fraction ++ (mark ++ rest))) := by
  rw [rest?_special, Option.map_eq_some_iff] at h
  rcases h with ⟨⟨a, tail⟩, hread, rfl⟩
  have hwell := Atom.wellFormed_of_special? cs tail a hread
  have hkind := Atom.terminal_of_special? cs tail a hread
  have htext := Atom.eq_of_special? hread
  cases a with
  | infinity s whole fraction =>
      refine ⟨s, whole, fraction, infinityMark, hwell.1, hwell.2, Or.inl rfl, ?_⟩
      simpa only [Atom.text, List.append_assoc, List.cons_append] using htext
  | nan s whole fraction =>
      refine ⟨s, whole, fraction, nanMark, hwell.1, hwell.2, Or.inr rfl, ?_⟩
      simpa only [Atom.text, List.append_assoc, List.cons_append] using htext
  | nil | int _ _ _ | fixed _ _ _ _ | scaled _ _ _ => cases hkind

/-- A double ends before the mark of a name. -/
theorem special_outruns_float : Outruns special float := by
  intro cs rest more hrest hmore
  rcases exists_of_rest?_special cs rest hrest with
    ⟨s, whole, fraction, mark, hwhole, hfraction, hmark, rfl⟩
  have hdigit : NoDigit (mark ++ rest) := by
    rcases hmark with rfl | rfl <;> exact noDigit_cons 'e' _ (by decide)
  have hexponent : exponent? (mark ++ rest) = none := by
    rcases hmark with rfl | rfl <;> rfl
  rw [rest?_float, Atom.float?_fixed s whole fraction _ hwhole.2 hfraction hdigit, hexponent,
    Option.map_some, Option.some.injEq] at hmore
  have hpos : 0 < mark.length := by
    rcases hmark with rfl | rfl <;> decide
  rw [← hmore, List.length_append]
  omega

/-- An integer ends at the point of a name. -/
theorem special_outruns_int : Outruns special int := by
  intro cs rest more hrest hmore
  rcases exists_of_rest?_special cs rest hrest with
    ⟨s, whole, fraction, mark, hwhole, hfraction, -, rfl⟩
  rw [rest?_int, Atom.int?_pointed s whole _ hwhole, Option.map_some, Option.some.injEq] at hmore
  have hpos := List.length_pos_iff.mpr hfraction.1
  rw [← hmore, List.length_append, List.length_append]
  omega

/-- A double has a point with digits behind it, or digits with an exponent. -/
theorem exists_of_rest?_float (cs rest : List Char) (h : float.pattern.rest? cs = some rest) :
    ∃ s : Sign,
      (∃ whole fraction tail, (∀ c ∈ whole, isDigit c) ∧ IsNumeral fraction
        ∧ cs = s.text ++ (whole ++ '.' :: (fraction ++ (tail ++ rest))))
      ∨ ∃ whole e, IsNumeral whole ∧ e.WellFormed
        ∧ cs = s.text ++ (whole ++ (Exponent.text e ++ rest)) := by
  rw [rest?_float, Option.map_eq_some_iff] at h
  rcases h with ⟨⟨a, tail⟩, hread, rfl⟩
  have hwell := Atom.wellFormed_of_float? cs tail a hread
  have hkind := Atom.terminal_of_float? cs tail a hread
  have htext := Atom.eq_of_float? hread
  cases a with
  | fixed s whole fraction e =>
      refine ⟨s, Or.inl ⟨whole, fraction, e.elim [] Exponent.text, hwell.1, hwell.2.1, ?_⟩⟩
      simpa only [Atom.text, List.append_assoc, List.cons_append] using htext
  | scaled s whole e =>
      refine ⟨s, Or.inr ⟨whole, e, hwell.1, hwell.2, ?_⟩⟩
      simpa only [Atom.text, List.append_assoc] using htext
  | nil | int _ _ _ | infinity _ _ _ | nan _ _ _ => cases hkind

/-- An integer ends at the point of a double, or before its exponent. -/
theorem float_outruns_int : Outruns float int := by
  intro cs rest more hrest hmore
  rw [rest?_int] at hmore
  rcases exists_of_rest?_float cs rest hrest with
    ⟨s, ⟨whole, fraction, tail, hwhole, hfraction, rfl⟩ | ⟨whole, e, hwhole, he, rfl⟩⟩
  · by_cases hne : whole = []
    · rw [hne, List.nil_append, Atom.int?_point] at hmore
      cases hmore
    · rw [Atom.int?_pointed s whole _ ⟨hne, hwhole⟩, Option.map_some, Option.some.injEq] at hmore
      have hpos := List.length_pos_iff.mpr hfraction.1
      rw [← hmore, List.length_append, List.length_append]
      omega
  · -- The letter of the exponent is neither a digit nor a point.
    have hdigit : NoDigit (e.text ++ rest) := by
      rcases he.1 with hl | hl <;> exact noDigit_cons _ _ (by rw [hl]; decide)
    have hpoint : afterWord? ['.'] (e.text ++ rest) = none := by
      rcases he.1 with hl | hl <;> exact if_neg (by rw [hl]; decide)
    rw [Atom.int?_append s whole _ hwhole hdigit, hpoint, Option.map_some,
      Option.some.injEq] at hmore
    rw [← hmore, List.length_append, Exponent.text, List.length_cons]
    omega

/-- A double that begins with a point has digits behind it. -/
theorem float_outruns_dot : Outruns float dot := by
  intro cs rest more hrest hmore
  rw [pattern, rest?_word] at hmore
  have hlength := congrArg List.length (eq_of_afterWord? hmore)
  rcases exists_of_rest?_float cs rest hrest with
    ⟨s, ⟨whole, fraction, tail, -, hfraction, rfl⟩ | ⟨whole, e, hwhole, -, rfl⟩⟩
  · have hpos := List.length_pos_iff.mpr hfraction.1
    simp only [List.length_append, List.length_cons, List.length_nil] at hlength
    omega
  · have hpos := List.length_pos_iff.mpr hwhole.1
    simp only [List.length_append, List.length_cons, List.length_nil, Exponent.text] at hlength
    omega

/-- A kind that never matches where the word of another stands. -/
theorem outruns_word (kind other : Terminal) (w : List Char) (hw : other.pattern = word w)
    (h : ∀ more, kind.pattern.rest? (w ++ more) = none) : Outruns kind other := by
  intro cs rest more hrest hmore
  rw [hw, rest?_word] at hmore
  rw [eq_of_afterWord? hmore, h] at hrest
  cases hrest

/-- A word where another kind never matches. -/
theorem word_outruns (kind other : Terminal) (w : List Char) (hw : kind.pattern = word w)
    (h : ∀ rest, other.pattern.rest? (w ++ rest) = none) : Outruns kind other := by
  intro cs rest more hrest hmore
  rw [hw, rest?_word] at hrest
  rw [eq_of_afterWord? hrest, h] at hmore
  cases hmore

/-- Kinds are tried in the order of their lengths. -/
theorem pairwise_outruns : order.Pairwise Outruns := by
  -- All but four pairs never match at one place.
  refine .cons ?_ (.cons ?_ (.cons ?_ (.cons ?_ (.cons ?_ (.cons ?_ (.cons ?_ .nil))))))
  · simp only [List.forall_mem_cons]
    exact ⟨outruns_word _ _ nilWord rfl fun _ => rfl, special_outruns_float, special_outruns_int,
      outruns_word _ _ ['.'] rfl fun _ => rfl, outruns_word _ _ ['('] rfl fun _ => rfl,
      outruns_word _ _ [')'] rfl fun _ => rfl, fun _ h => absurd h List.not_mem_nil⟩
  · intro other hother
    refine word_outruns nil other nilWord rfl fun rest => ?_
    simp only [List.mem_cons, List.not_mem_nil, or_false] at hother
    rcases hother with rfl | rfl | rfl | rfl | rfl <;> rfl
  · simp only [List.forall_mem_cons]
    exact ⟨float_outruns_int, float_outruns_dot, outruns_word _ _ ['('] rfl fun _ => rfl,
      outruns_word _ _ [')'] rfl fun _ => rfl, fun _ h => absurd h List.not_mem_nil⟩
  · simp only [List.forall_mem_cons]
    exact ⟨outruns_word _ _ ['.'] rfl fun _ => rfl, outruns_word _ _ ['('] rfl fun _ => rfl,
      outruns_word _ _ [')'] rfl fun _ => rfl, fun _ h => absurd h List.not_mem_nil⟩
  · intro other hother
    refine word_outruns dot other ['.'] rfl fun rest => ?_
    simp only [List.mem_cons, List.not_mem_nil, or_false] at hother
    rcases hother with rfl | rfl <;> rfl
  · intro other hother
    rw [List.mem_singleton.mp hother]
    exact word_outruns opening closing ['('] rfl fun _ => rfl
  · exact fun _ h => absurd h List.not_mem_nil

/-! ## The longest word -/

/-- A text begins with a word of a kind and with no longer word of that kind,
    and the words of other kinds that it begins with are shorter. -/
structure IsLongest (kind : Terminal) (word cs : List Char) : Prop where
  begins : word <+: cs
  accepts : kind.pattern.Accepts word
  le : ∀ longer, longer <+: cs → kind.pattern.Accepts longer → longer.length ≤ word.length
  lt : ∀ other, other ≠ kind → ∀ shorter, shorter <+: cs → other.pattern.Accepts shorter →
    shorter.length < word.length

/-- Where a word of a kind stands, the kind matches, and it leaves no more than
    what is behind the word. -/
theorem exists_rest?_of_accepts (kind : Terminal) (word rest : List Char)
    (h : kind.pattern.Accepts word) :
    ∃ least, kind.pattern.rest? (word ++ rest) = some least ∧ least.length ≤ rest.length := by
  have hmem := (mem_rests_iff kind.pattern (word ++ rest) rest).mpr ⟨word, rfl, h⟩
  rcases hrests : kind.pattern.rests (word ++ rest) with _ | ⟨least, more⟩
  · rw [hrests] at hmem
    exact absurd hmem List.not_mem_nil
  · have hleast : kind.pattern.rest? (word ++ rest) = some least := by
      rw [rest?, hrests, List.head?_cons]
    exact ⟨least, hleast, (longestFirst_pattern kind).length_le _ _ _ hleast hmem⟩

/-- The first kind matches, and its match takes a word of it. -/
theorem exists_accepts_of_first? (kind : Terminal) (cs rest : List Char)
    (h : first? cs = some (kind, rest)) :
    kind.pattern.rest? cs = some rest ∧ ∃ word, cs = word ++ rest ∧ kind.pattern.Accepts word := by
  rcases List.exists_of_findSome?_eq_some h with ⟨first, -, hfirst⟩
  rcases Option.map_eq_some_iff.mp hfirst with ⟨_, hrest, he⟩
  rcases Prod.mk.inj he with ⟨rfl, rfl⟩
  exact ⟨hrest, (mem_rests_iff _ _ _).mp (List.mem_of_mem_head? hrest)⟩

/-- Any other kind that matches leaves more than the first. -/
theorem length_lt_of_first? (kind other : Terminal) (cs rest more : List Char)
    (h : first? cs = some (kind, rest)) (hne : other ≠ kind)
    (hmore : other.pattern.rest? cs = some more) : rest.length < more.length := by
  rcases List.findSome?_eq_some_iff.mp h with ⟨before, first, after, horder, hfirst, hbefore⟩
  rcases Option.map_eq_some_iff.mp hfirst with ⟨_, hrest, he⟩
  rcases Prod.mk.inj he with ⟨rfl, rfl⟩
  have hother : other ∈ before ++ first :: after := by
    rw [← horder]
    cases other <;> decide
  rcases List.mem_append.mp hother with hmem | hmem
  · -- No kind before the first matches.
    have hnone := hbefore other hmem
    rw [hmore] at hnone
    cases hnone
  · have hpairwise := pairwise_outruns
    rw [horder, List.pairwise_append] at hpairwise
    have hafter := (List.mem_cons.mp hmem).resolve_left hne
    exact List.rel_of_pairwise_cons hpairwise.2.1 hafter cs _ more hrest hmore

/-- The first kind that matches is the longest. -/
theorem isLongest_of_first? (kind : Terminal) (word rest : List Char)
    (h : first? (word ++ rest) = some (kind, rest)) : kind.IsLongest word (word ++ rest) := by
  rcases exists_accepts_of_first? kind _ rest h with ⟨hrest, taken, htext, htaken⟩
  refine ⟨List.prefix_append word rest, ?_, ?_, ?_⟩
  · rw [List.append_cancel_right htext]
    exact htaken
  · rintro longer ⟨more, hmore⟩ haccepts
    rcases exists_rest?_of_accepts kind longer more haccepts with ⟨least, hleast, hle⟩
    rw [hmore, hrest, Option.some.injEq] at hleast
    have hlength := congrArg List.length hmore
    rw [List.length_append, List.length_append] at hlength
    rw [← hleast] at hle
    omega
  · rintro other hne shorter ⟨more, hmore⟩ haccepts
    rcases exists_rest?_of_accepts other shorter more haccepts with ⟨least, hleast, hle⟩
    rw [hmore] at hleast
    have hlt := length_lt_of_first? kind other _ rest least h hne hleast
    have hlength := congrArg List.length hmore
    rw [List.length_append, List.length_append] at hlength
    omega

/-- The longest word is of one kind and has one extent. -/
theorem IsLongest.unique {kind other : Terminal} {word word' cs : List Char}
    (h : kind.IsLongest word cs) (h' : other.IsLongest word' cs) :
    kind = other ∧ word = word' := by
  have hkind : kind = other := by
    by_contra hne
    have hlt := h.lt other (Ne.symm hne) word' h'.begins h'.accepts
    have hgt := h'.lt kind hne word h.begins h.accepts
    omega
  subst hkind
  have hle := h'.le word h.begins h.accepts
  have hge := h.le word' h'.begins h'.accepts
  exact ⟨rfl, (List.prefix_of_prefix_length_le h.begins h'.begins hle).eq_of_length (by omega)⟩

/-- The order in which kinds are tried may be forgotten: the first that matches
    is the one with the longest word. -/
theorem first?_eq_some_iff (kind : Terminal) (word rest : List Char) :
    first? (word ++ rest) = some (kind, rest) ↔ kind.IsLongest word (word ++ rest) := by
  refine ⟨isLongest_of_first? kind word rest, fun h => ?_⟩
  rcases hfirst : first? (word ++ rest) with _ | ⟨other, more⟩
  · -- The kind itself matches, so some kind does.
    rcases exists_rest?_of_accepts kind word rest h.accepts with ⟨least, hleast, -⟩
    rw [first?, List.findSome?_eq_none_iff] at hfirst
    have hnone := hfirst kind (by cases kind <;> decide)
    rw [hleast] at hnone
    cases hnone
  · rcases exists_accepts_of_first? other _ more hfirst with ⟨-, taken, htext, -⟩
    have hlongest := isLongest_of_first? other taken more (htext ▸ hfirst)
    rw [← htext] at hlongest
    rcases h.unique hlongest with ⟨rfl, rfl⟩
    rw [List.append_cancel_left htext]

end Terminal

end PicoTime
