import PicoTime.Expression.Tokens
import Mathlib.Data.List.TakeWhile

/-!
# The Text of an Atom Reads Back

An atom that is written with digits where digits belong is the first token of
its own text. The readings overlap, so it takes two things to see that. The
reading of the atom's kind takes the text apart where it was put together,
and the readings that are tried before it do not apply.

What follows the atom must not go on with it. Printed text has a blank, a
closing bracket or nothing there, and that is all that is shown here.

## Main definitions

* `IsNumeral`: Digits, one at least.
* `Atom.WellFormed`: An atom with digits where digits belong.
* `Closed`: A text that no atom can go on with.

## Theorems

* `takeSign_append`, `takeDigits_append`, `exponent?_append`: The parts of an
  atom are taken back apart.
* `Token.first?_eq_findSome?`: The first reading that applies is taken.
* `Token.first?_text`: A well-formed atom is the first token of its text.
-/

namespace PicoTime

/-- Digits of any script, one at least. -/
def IsNumeral (cs : List Char) : Prop :=
  cs ≠ [] ∧ ∀ c ∈ cs, isDigit c

/-- An exponent as it can be read. -/
def Exponent.WellFormed (e : Exponent) : Prop :=
  (e.letter = 'e' ∨ e.letter = 'E') ∧ IsNumeral e.digits

/-- An atom as it can be read. -/
def Atom.WellFormed : Atom → Prop
  | .nil => True
  | .int _ digits _ => IsNumeral digits
  | .fixed _ whole fraction exponent =>
    (∀ c ∈ whole, isDigit c) ∧ IsNumeral fraction ∧ ∀ e ∈ exponent, e.WellFormed
  | .scaled _ whole exponent => IsNumeral whole ∧ exponent.WellFormed
  | .infinity _ whole fraction => IsNumeral whole ∧ IsNumeral fraction
  | .nan _ whole fraction => IsNumeral whole ∧ IsNumeral fraction

/-- A text that no atom before it can go on with. -/
def Closed (cs : List Char) : Prop :=
  ∀ c ∈ cs.head?, c = ' ' ∨ c = ')'

/-- A text that no numeral before it can go on with. -/
def NoDigit (cs : List Char) : Prop :=
  ∀ c ∈ cs.head?, isDigit c = false

theorem closed_nil : Closed [] := by
  intro c hc
  simp only [List.head?_nil, Option.mem_def, reduceCtorEq] at hc

theorem closed_space (cs : List Char) : Closed (' ' :: cs) := by
  intro c hc
  exact Or.inl (Option.some.inj hc).symm

theorem closed_closing (cs : List Char) : Closed (')' :: cs) := by
  intro c hc
  exact Or.inr (Option.some.inj hc).symm

theorem noDigit_of_closed (cs : List Char) (h : Closed cs) : NoDigit cs := by
  intro c hc
  rcases h c hc with rfl | rfl <;> decide

theorem noDigit_cons (c : Char) (cs : List Char) (h : isDigit c = false) : NoDigit (c :: cs) := by
  intro d hd
  rw [← Option.some.inj hd]
  exact h

/-! ## The parts of an atom -/

/-- A word whose first letter does not stand first is not there. -/
theorem afterWord?_eq_none (w : Char) (ws cs : List Char) (h : ∀ c ∈ cs.head?, c ≠ w) :
    afterWord? (w :: ws) cs = none := by
  cases cs with
  | nil => rfl
  | cons c cs => exact if_neg fun hw => h c rfl hw.symm

theorem afterWord?_closed (w : Char) (ws cs : List Char) (h : Closed cs)
    (hspace : w ≠ ' ') (hclosing : w ≠ ')') : afterWord? (w :: ws) cs = none := by
  apply afterWord?_eq_none
  intro c hc hw
  rcases h c hc with rfl | rfl
  · exact hspace hw.symm
  · exact hclosing hw.symm

theorem afterWord?_append (w cs : List Char) : afterWord? w (w ++ cs) = some cs := by
  induction w with
  | nil => rfl
  | cons c w ih => rw [List.cons_append, afterWord?, if_pos rfl, ih]

/-- A sign is taken off before a digit or a point. -/
theorem takeSign_append (sign : Sign) (cs : List Char)
    (h : ∀ c ∈ cs.head?, isDigit c ∨ c = '.') : takeSign (sign.text ++ cs) = (sign, cs) := by
  cases sign with
  | plus => rfl
  | minus => rfl
  | none =>
      -- What stands first is no sign, so none is taken.
      rw [Sign.text, List.nil_append, takeSign]
      · rintro rest rfl
        exact absurd (h '+' rfl) (by decide)
      · rintro rest rfl
        exact absurd (h '-' rfl) (by decide)

theorem head_numeral (digits cs : List Char) (h : IsNumeral digits) :
    ∀ c ∈ (digits ++ cs).head?, isDigit c ∨ c = '.' := by
  rcases h with ⟨hne, hdigits⟩
  cases digits with
  | nil => exact absurd rfl hne
  | cons d digits =>
      intro c hc
      rw [← Option.some.inj hc]
      exact Or.inl (hdigits d List.mem_cons_self)

theorem head_point (digits cs : List Char) (h : ∀ c ∈ digits, isDigit c) :
    ∀ c ∈ (digits ++ '.' :: cs).head?, isDigit c ∨ c = '.' := by
  by_cases hne : digits = []
  · -- The point itself stands first.
    rintro c hc
    rw [hne] at hc
    exact Or.inr (Option.some.inj hc).symm
  · exact head_numeral digits ('.' :: cs) ⟨hne, h⟩

/-- A run of digits is taken off as a whole. -/
theorem takeDigits_append (digits cs : List Char) (h : ∀ c ∈ digits, isDigit c)
    (hcs : NoDigit cs) : takeDigits (digits ++ cs) = (digits, cs) := by
  rw [takeDigits, List.takeWhile_append_of_pos h, List.dropWhile_append_of_pos h]
  -- The run ends where the rest begins.
  cases cs with
  | nil => rw [List.takeWhile_nil, List.dropWhile_nil, List.append_nil]
  | cons c cs =>
      have hc : ¬ isDigit c = true := Bool.not_eq_true _ ▸ hcs c rfl
      rw [List.takeWhile_cons_of_neg hc, List.dropWhile_cons_of_neg hc, List.append_nil]

theorem someDigits?_append (digits cs : List Char) (h : IsNumeral digits) (hcs : NoDigit cs) :
    someDigits? (digits ++ cs) = some (digits, cs) := by
  simp only [someDigits?, takeDigits_append digits cs h.2 hcs, List.isEmpty_iff]
  rw [if_neg h.1]

theorem someDigits?_eq_none (cs : List Char) (hcs : NoDigit cs) : someDigits? cs = none := by
  have h := takeDigits_append [] cs (by simp) hcs
  rw [List.nil_append] at h
  simp only [someDigits?, h]
  rfl

/-- A complete exponent is taken off as a whole. -/
theorem exponent?_append (e : Exponent) (cs : List Char) (h : e.WellFormed) (hcs : NoDigit cs) :
    exponent? (e.text ++ cs) = some (e, cs) := by
  rcases h with ⟨hletter, hdigits⟩
  have hsign := takeSign_append e.sign (e.digits ++ cs) (head_numeral e.digits cs hdigits)
  rw [Exponent.text, List.cons_append, List.append_assoc, exponent?, if_pos hletter, hsign]
  simp only [someDigits?_append e.digits cs hdigits hcs, Option.map_some]

theorem exponent?_closed (cs : List Char) (hcs : Closed cs) : exponent? cs = none := by
  cases cs with
  | nil => rfl
  | cons c cs =>
      rw [exponent?, if_neg]
      rcases hcs c rfl with rfl | rfl <;> decide

/-- An exponent's sign is followed by digits, so it names no infinity and no
    NaN. -/
theorem afterWord?_exponent (letter : Char) (mark : List Char) (e : Exponent) (cs : List Char)
    (h : e.WellFormed) (hletter : isDigit letter = false) :
    afterWord? ('e' :: '+' :: letter :: mark) (e.text ++ cs) = none := by
  rcases h with ⟨-, hne, hdigits⟩
  rcases e with ⟨first, sign, _ | ⟨d, digits⟩⟩
  · exact absurd rfl hne
  · have hd : isDigit d := hdigits d List.mem_cons_self
    -- A mark goes on with a plus and a letter, where an exponent has a digit.
    by_cases hfirst : 'e' = first
    · rw [Exponent.text, List.cons_append, afterWord?, if_pos hfirst]
      cases sign with
      | none => exact if_neg (by rintro rfl; exact absurd hd (by decide))
      | minus => exact if_neg (by decide)
      | plus =>
          refine (if_pos rfl).trans (if_neg ?_)
          rintro rfl
          rw [hletter] at hd
          exact absurd hd (by decide)
    · exact if_neg hfirst

/-! ## The readings of an atom -/

namespace Atom

/-- What has the form of a name is one if a mark follows the digits. -/
theorem special?_append (sign : Sign) (whole fraction cs : List Char) (hwhole : IsNumeral whole)
    (hfraction : IsNumeral fraction) (hcs : NoDigit cs) :
    special? (sign.text ++ (whole ++ '.' :: (fraction ++ cs)))
      = match afterWord? infinityMark cs with
        | some rest => some (.infinity sign whole fraction, rest)
        | none => (afterWord? nanMark cs).map fun rest => (.nan sign whole fraction, rest) := by
  have hsign := takeSign_append sign _
    (head_numeral whole ('.' :: (fraction ++ cs)) hwhole)
  have hdigits := someDigits?_append whole ('.' :: (fraction ++ cs)) hwhole
    (noDigit_cons _ _ (by decide))
  have hpoint := afterWord?_append ['.'] (fraction ++ cs)
  rw [List.singleton_append] at hpoint
  simp only [special?, hsign, hdigits, hpoint, someDigits?_append fraction cs hfraction hcs,
    Option.bind_eq_bind, Option.bind_some]
  -- Only the marks are left to be tried, one after the other.
  rcases afterWord? infinityMark cs with _ | rest
  · rcases afterWord? nanMark cs with _ | rest <;> rfl
  · rfl

/-- What has no point with digits behind it is no name. -/
theorem special?_eq_none (sign : Sign) (digits cs : List Char) (h : IsNumeral digits)
    (hcs : NoDigit cs) (hpoint : ∀ more, cs = '.' :: more → NoDigit more) :
    special? (sign.text ++ (digits ++ cs)) = none := by
  have hsign := takeSign_append sign _ (head_numeral digits cs h)
  simp only [special?, hsign, someDigits?_append digits cs h hcs, Option.bind_eq_bind,
    Option.bind_some]
  rcases hword : afterWord? ['.'] cs with _ | more
  · rfl
  · simp only [someDigits?_eq_none more (hpoint more (eq_of_afterWord? hword)),
      Option.bind_some, Option.bind_none]

/-- A name has digits before its point. -/
theorem special?_point (sign : Sign) (cs : List Char) :
    special? (sign.text ++ '.' :: cs) = none := by
  have hsign := takeSign_append sign ('.' :: cs) (fun c hc => Or.inr (Option.some.inj hc).symm)
  rw [special?, hsign]
  rfl

/-- What does not begin with the word for nil is not nil. -/
theorem nil?_eq_none (sign : Sign) (cs : List Char)
    (h : ∀ c ∈ cs.head?, isDigit c ∨ c = '.') : nil? (sign.text ++ cs) = none := by
  have hword : afterWord? nilWord (sign.text ++ cs) = none := by
    apply afterWord?_eq_none
    -- The first character is a sign, a digit or a point.
    rintro c hc rfl
    cases sign with
    | none => exact absurd (h 'n' hc) (by decide)
    | plus => exact absurd (Option.some.inj hc) (by decide)
    | minus => exact absurd (Option.some.inj hc) (by decide)
  rw [nil?, hword, Option.map_none]

/-- A double with a point is read as one, with the exponent behind it. -/
theorem float?_fixed (sign : Sign) (whole fraction cs : List Char) (hwhole : ∀ c ∈ whole, isDigit c)
    (hfraction : IsNumeral fraction) (hcs : NoDigit cs) :
    float? (sign.text ++ (whole ++ '.' :: (fraction ++ cs)))
      = match exponent? cs with
        | some (exponent, rest) => some (.fixed sign whole fraction exponent, rest)
        | none => some (.fixed sign whole fraction none, cs) := by
  have hsign := takeSign_append sign _ (head_point whole (fraction ++ cs) hwhole)
  have hdigits := takeDigits_append whole ('.' :: (fraction ++ cs)) hwhole
    (noDigit_cons _ _ (by decide))
  have hpoint := afterWord?_append ['.'] (fraction ++ cs)
  rw [List.singleton_append] at hpoint
  simp only [float?, hsign, hdigits, hpoint, someDigits?_append fraction cs hfraction hcs,
    Option.map_some]
  rcases exponent? cs with _ | ⟨exponent, rest⟩ <;> rfl

/-- Digits without a point are a double if an exponent follows. -/
theorem float?_scaled (sign : Sign) (digits cs : List Char) (h : IsNumeral digits)
    (hcs : NoDigit cs) (hpoint : ∀ c ∈ cs.head?, c ≠ '.') :
    float? (sign.text ++ (digits ++ cs))
      = (exponent? cs).map fun (exponent, rest) => (.scaled sign digits exponent, rest) := by
  have hsign := takeSign_append sign _ (head_numeral digits cs h)
  have hnone := afterWord?_eq_none '.' [] cs hpoint
  simp only [float?, hsign, takeDigits_append digits cs h.2 hcs, hnone, List.isEmpty_iff]
  rw [if_neg h.1]

/-- Digits and a point with no digit behind it are no double. -/
theorem float?_point (sign : Sign) (digits cs : List Char) (h : IsNumeral digits)
    (hcs : NoDigit cs) : float? (sign.text ++ (digits ++ '.' :: cs)) = none := by
  have hsign := takeSign_append sign _ (head_numeral digits ('.' :: cs) h)
  have hdigits := takeDigits_append digits ('.' :: cs) h.2 (noDigit_cons _ _ (by decide))
  have hpoint := afterWord?_append ['.'] cs
  rw [List.singleton_append] at hpoint
  simp only [float?, hsign, hdigits, hpoint, someDigits?_eq_none cs hcs, Option.map_none]

/-- An integer is read with the point behind it. -/
theorem int?_append (sign : Sign) (digits cs : List Char) (h : IsNumeral digits)
    (hcs : NoDigit cs) :
    int? (sign.text ++ (digits ++ cs))
      = match afterWord? ['.'] cs with
        | some rest => some (.int sign digits true, rest)
        | none => some (.int sign digits false, cs) := by
  have hsign := takeSign_append sign _ (head_numeral digits cs h)
  simp only [int?, hsign, someDigits?_append digits cs h hcs, Option.map_some]
  rcases afterWord? ['.'] cs with _ | rest <;> rfl

end Atom

namespace Token

/-- The first reading that applies is taken. -/
theorem first?_eq_findSome? (cs : List Char) :
    first? cs = readers.findSome? fun reader => reader cs := by
  rw [first?, readings, List.head?_filterMap]

/-- A name is taken for one. -/
theorem first?_of_special? (cs rest : List Char) (a : Atom)
    (h : Atom.special? cs = some (a, rest)) : first? cs = some (.atom a, rest) := by
  simp only [first?_eq_findSome?, readers, List.findSome?_cons, ofAtom?, h, Option.map_some]

/-- What is neither a name nor nil is a double if it can be. -/
theorem first?_of_float? (cs rest : List Char) (a : Atom) (hspecial : Atom.special? cs = none)
    (hnil : Atom.nil? cs = none) (h : Atom.float? cs = some (a, rest)) :
    first? cs = some (.atom a, rest) := by
  simp only [first?_eq_findSome?, readers, List.findSome?_cons, ofAtom?, hspecial, hnil, h,
    Option.map_none, Option.map_some]

/-- What is none of these is an integer if it can be. -/
theorem first?_of_int? (cs rest : List Char) (a : Atom) (hspecial : Atom.special? cs = none)
    (hnil : Atom.nil? cs = none) (hfloat : Atom.float? cs = none)
    (h : Atom.int? cs = some (a, rest)) : first? cs = some (.atom a, rest) := by
  simp only [first?_eq_findSome?, readers, List.findSome?_cons, ofAtom?, hspecial, hnil, hfloat,
    h, Option.map_none, Option.map_some]

theorem first?_nil (rest : List Char) :
    first? (Atom.nil.text ++ rest) = some (.atom .nil, rest) := by
  have hnil : Atom.nil? (nilWord ++ rest) = some (.nil, rest) := by
    rw [Atom.nil?, afterWord?_append, Option.map_some]
  have hspecial : Atom.special? (nilWord ++ rest) = none := rfl
  simp only [Atom.text, first?_eq_findSome?, readers, List.findSome?_cons, ofAtom?, hspecial,
    hnil, Option.map_none, Option.map_some]

theorem first?_int (sign : Sign) (digits rest : List Char) (point : Bool)
    (h : IsNumeral digits) (hrest : Closed rest) :
    first? ((Atom.int sign digits point).text ++ rest)
      = some (.atom (.int sign digits point), rest) := by
  have hnodigit := noDigit_of_closed rest hrest
  rw [Atom.text, List.append_assoc, List.append_assoc]
  cases point with
  | false =>
      rw [if_neg (by decide), List.nil_append]
      -- No point follows, so the other readings end with the digits.
      have hdot := afterWord?_closed '.' [] rest hrest (by decide) (by decide)
      apply first?_of_int?
      · refine Atom.special?_eq_none sign digits rest h hnodigit ?_
        rintro more rfl
        exact absurd (hrest '.' rfl) (by decide)
      · exact Atom.nil?_eq_none sign _ (head_numeral digits rest h)
      · rw [Atom.float?_scaled sign digits rest h hnodigit ?_, exponent?_closed rest hrest,
          Option.map_none]
        rintro c hc rfl
        exact absurd (hrest '.' hc) (by decide)
      · rw [Atom.int?_append sign digits rest h hnodigit, hdot]
  | true =>
      rw [if_pos rfl, List.singleton_append]
      -- A point follows, and no digit that would make it a double.
      have hpoint : NoDigit ('.' :: rest) := noDigit_cons '.' rest (by decide)
      apply first?_of_int?
      · refine Atom.special?_eq_none sign digits ('.' :: rest) h hpoint ?_
        intro more hmore
        rw [← (List.cons.inj hmore).2]
        exact hnodigit
      · exact Atom.nil?_eq_none sign _ (head_numeral digits _ h)
      · exact Atom.float?_point sign digits rest h hnodigit
      · rw [Atom.int?_append sign digits _ h hpoint]
        rfl

theorem first?_scaled (sign : Sign) (whole rest : List Char) (e : Exponent)
    (h : IsNumeral whole) (he : e.WellFormed) (hrest : Closed rest) :
    first? ((Atom.scaled sign whole e).text ++ rest)
      = some (.atom (.scaled sign whole e), rest) := by
  -- The letter ends the digits and is no point.
  have hletter : ∀ c ∈ (e.text ++ rest).head?, c = 'e' ∨ c = 'E' := by
    intro c hc
    rw [← Option.some.inj hc]
    exact he.1
  have hdigit : NoDigit (e.text ++ rest) := by
    intro c hc
    rcases hletter c hc with rfl | rfl <;> decide
  have hpoint : ∀ c ∈ (e.text ++ rest).head?, c ≠ '.' := by
    intro c hc
    rcases hletter c hc with rfl | rfl <;> decide
  rw [Atom.text, List.append_assoc, List.append_assoc]
  apply first?_of_float?
  · refine Atom.special?_eq_none sign whole _ h hdigit ?_
    intro more hmore
    exact absurd rfl (hpoint '.' (hmore ▸ rfl))
  · exact Atom.nil?_eq_none sign _ (head_numeral whole _ h)
  · rw [Atom.float?_scaled sign whole _ h hdigit hpoint,
      exponent?_append e rest he (noDigit_of_closed rest hrest), Option.map_some]

/-- What may stand behind the digits of a double with a point: an exponent or
    nothing. Neither is a digit or the mark of a name. -/
theorem exponent_or_closed (exponent : Option Exponent) (rest : List Char)
    (he : ∀ e ∈ exponent, e.WellFormed) (hrest : Closed rest) :
    NoDigit (exponent.elim [] Exponent.text ++ rest)
      ∧ afterWord? infinityMark (exponent.elim [] Exponent.text ++ rest) = none
      ∧ afterWord? nanMark (exponent.elim [] Exponent.text ++ rest) = none := by
  cases exponent with
  | none =>
      exact ⟨noDigit_of_closed rest hrest,
        afterWord?_closed 'e' _ rest hrest (by decide) (by decide),
        afterWord?_closed 'e' _ rest hrest (by decide) (by decide)⟩
  | some e =>
      have he : e.WellFormed := he e rfl
      refine ⟨?_, afterWord?_exponent 'I' _ e rest he (by decide),
        afterWord?_exponent 'N' _ e rest he (by decide)⟩
      apply noDigit_cons
      rcases he.1 with hl | hl <;> rw [hl] <;> decide

theorem first?_fixed (sign : Sign) (whole fraction rest : List Char) (exponent : Option Exponent)
    (h : (Atom.fixed sign whole fraction exponent).WellFormed) (hrest : Closed rest) :
    first? ((Atom.fixed sign whole fraction exponent).text ++ rest)
      = some (.atom (.fixed sign whole fraction exponent), rest) := by
  rcases h with ⟨hwhole, hfraction, he⟩
  rcases exponent_or_closed exponent rest he hrest with ⟨hdigit, hinfinity, hnan⟩
  rw [Atom.text, List.append_assoc, List.append_assoc, List.cons_append, List.append_assoc]
  apply first?_of_float?
  · by_cases hne : whole = []
    · rw [hne]
      exact Atom.special?_point sign _
    · rw [Atom.special?_append sign whole fraction _ ⟨hne, hwhole⟩ hfraction hdigit, hinfinity,
        hnan]
      rfl
  · exact Atom.nil?_eq_none sign _ (head_point whole _ hwhole)
  · rw [Atom.float?_fixed sign whole fraction _ hwhole hfraction hdigit]
    cases exponent with
    | none =>
        have hnone := exponent?_closed rest hrest
        rw [Option.elim_none, List.nil_append, hnone]
    | some e =>
        have hsome := exponent?_append e rest (he e rfl) (noDigit_of_closed rest hrest)
        rw [Option.elim_some, hsome]

/-- A well-formed atom is the first token of its text, whatever closed text
    follows it. -/
theorem first?_text (a : Atom) (rest : List Char) (h : a.WellFormed) (hrest : Closed rest) :
    first? (a.text ++ rest) = some (.atom a, rest) := by
  cases a with
  | nil => exact first?_nil rest
  | int sign digits point => exact first?_int sign digits rest point h hrest
  | fixed sign whole fraction exponent =>
      exact first?_fixed sign whole fraction rest exponent h hrest
  | scaled sign whole e => exact first?_scaled sign whole rest e h.1 h.2 hrest
  | infinity sign whole fraction =>
      have hdigit : NoDigit (infinityMark ++ rest) := noDigit_cons 'e' _ (by decide)
      apply first?_of_special?
      rw [Atom.text, List.append_assoc, List.append_assoc, List.cons_append, List.append_assoc,
        Atom.special?_append sign whole fraction _ h.1 h.2 hdigit, afterWord?_append]
  | nan sign whole fraction =>
      have hdigit : NoDigit (nanMark ++ rest) := noDigit_cons 'e' _ (by decide)
      have hmark : afterWord? infinityMark (nanMark ++ rest) = none := rfl
      apply first?_of_special?
      rw [Atom.text, List.append_assoc, List.append_assoc, List.cons_append, List.append_assoc,
        Atom.special?_append sign whole fraction _ h.1 h.2 hdigit, hmark, afterWord?_append]
      rfl

end Token

/-! ## What is read -/

/-- Scanned digits are a numeral. -/
theorem isNumeral_of_someDigits? (cs digits rest : List Char)
    (h : someDigits? cs = some (digits, rest)) : IsNumeral digits := by
  refine ⟨ne_nil_of_someDigits? h, fun c hc => ?_⟩
  simp only [someDigits?] at h
  split at h
  · exact absurd h (by simp only [reduceCtorEq, not_false_eq_true])
  · rw [← (Prod.mk.inj (Option.some.inj h)).1, takeDigits] at hc
    exact List.mem_takeWhile_imp hc

theorem wellFormed_of_exponent? (cs rest : List Char) (e : Exponent)
    (h : exponent? cs = some (e, rest)) : e.WellFormed := by
  cases cs with
  | nil => exact absurd h (by simp only [exponent?, reduceCtorEq, not_false_eq_true])
  | cons letter cs =>
      simp only [exponent?] at h
      split at h
      · next hletter =>
        rcases Option.map_eq_some_iff.mp h with ⟨⟨digits, tail⟩, hdigits, he⟩
        rw [← (Prod.mk.inj he).1]
        exact ⟨hletter, isNumeral_of_someDigits? _ digits tail hdigits⟩
      · exact absurd h (by simp only [reduceCtorEq, not_false_eq_true])

namespace Atom

theorem wellFormed_of_special? (cs rest : List Char) (a : Atom)
    (h : special? cs = some (a, rest)) : a.WellFormed := by
  simp only [special?, Option.bind_eq_bind, Option.bind_eq_some_iff, Prod.exists] at h
  rcases h with ⟨whole, _, hwhole, _, _, fraction, _, hfraction, h⟩
  have hwhole := isNumeral_of_someDigits? _ whole _ hwhole
  have hfraction := isNumeral_of_someDigits? _ fraction _ hfraction
  split at h
  · rw [← (Prod.mk.inj (Option.some.inj h)).1]
    exact ⟨hwhole, hfraction⟩
  · rcases Option.bind_eq_some_iff.mp h with ⟨_, -, he⟩
    rw [← (Prod.mk.inj (Option.some.inj he)).1]
    exact ⟨hwhole, hfraction⟩

theorem wellFormed_of_float? (cs rest : List Char) (a : Atom) (h : float? cs = some (a, rest)) :
    a.WellFormed := by
  have hwhole : ∀ c ∈ (takeDigits (takeSign cs).2).1, isDigit c :=
    fun c hc => List.mem_takeWhile_imp hc
  simp only [float?] at h
  split at h
  · rcases Option.map_eq_some_iff.mp h with ⟨⟨fraction, after⟩, hfraction, he⟩
    have hfraction := isNumeral_of_someDigits? _ fraction after hfraction
    split at he
    · next exponent tail hexponent =>
      rw [← (Prod.mk.inj he).1]
      refine ⟨hwhole, hfraction, fun e hmem => ?_⟩
      rw [← Option.some.inj hmem]
      exact wellFormed_of_exponent? after tail exponent hexponent
    · rw [← (Prod.mk.inj he).1]
      refine ⟨hwhole, hfraction, fun e hmem => ?_⟩
      exact absurd hmem (by simp only [Option.mem_def, reduceCtorEq, not_false_eq_true])
  · split at h
    · exact absurd h (by simp only [reduceCtorEq, not_false_eq_true])
    · next hne =>
      rcases Option.map_eq_some_iff.mp h with ⟨⟨exponent, tail⟩, hexponent, he⟩
      rw [← (Prod.mk.inj he).1]
      rw [List.isEmpty_iff] at hne
      exact ⟨⟨hne, hwhole⟩, wellFormed_of_exponent? _ tail exponent hexponent⟩

theorem wellFormed_of_int? (cs rest : List Char) (a : Atom) (h : int? cs = some (a, rest)) :
    a.WellFormed := by
  simp only [int?] at h
  rcases Option.map_eq_some_iff.mp h with ⟨⟨digits, after⟩, hdigits, he⟩
  have hdigits := isNumeral_of_someDigits? _ digits after hdigits
  split at he <;> rw [← (Prod.mk.inj he).1] <;> exact hdigits

end Atom

namespace Token

/-- A token that is not an atom is always written alike, and an atom is
    well formed. -/
def WellFormed : Token → Prop
  | .atom a => a.WellFormed
  | _ => True

/-- Whatever is read is well formed. -/
theorem wellFormed_of_first? (cs rest : List Char) (t : Token)
    (h : first? cs = some (t, rest)) : t.WellFormed := by
  rw [first?_eq_findSome?] at h
  rcases List.exists_of_findSome?_eq_some h with ⟨reader, hreader, hread⟩
  have hofAtom (scan : List Char → Option (Atom × List Char))
      (hscan : ∀ a rest, scan cs = some (a, rest) → a.WellFormed)
      (hread : ofAtom? scan cs = some (t, rest)) : t.WellFormed := by
    rcases Option.map_eq_some_iff.mp hread with ⟨⟨a, tail⟩, ha, he⟩
    rw [← (Prod.mk.inj he).1]
    exact hscan a tail ha
  have hliteral (token : Token) (htoken : token.WellFormed)
      (hread : literal? token cs = some (t, rest)) : t.WellFormed := by
    rcases Option.map_eq_some_iff.mp hread with ⟨_, -, he⟩
    rw [← (Prod.mk.inj he).1]
    exact htoken
  simp only [readers, List.mem_cons, List.not_mem_nil, or_false] at hreader
  rcases hreader with rfl | rfl | rfl | rfl | rfl | rfl | rfl
  · exact hofAtom _ (fun a rest h => Atom.wellFormed_of_special? cs rest a h) hread
  · refine hofAtom _ (fun a tail h => ?_) hread
    rcases Option.map_eq_some_iff.mp h with ⟨_, -, he⟩
    rw [← (Prod.mk.inj he).1]
    trivial
  · exact hofAtom _ (fun a rest h => Atom.wellFormed_of_float? cs rest a h) hread
  · exact hofAtom _ (fun a rest h => Atom.wellFormed_of_int? cs rest a h) hread
  · exact hliteral .dot trivial hread
  · exact hliteral .opening trivial hread
  · exact hliteral .closing trivial hread

end Token

end PicoTime
