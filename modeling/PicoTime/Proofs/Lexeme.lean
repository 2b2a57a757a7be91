import Mathlib
import PicoTime.Expression.Value
import PicoTime.Proofs.ShortestDecimal
import PicoTime.Proofs.Terminal
import PicoTime.Proofs.Timed

/-!
# Lexemes

A lexeme is a kind of token with the characters it was found as, and what it
denotes can be said from the characters alone: from the sign in front, from
the digits among them, from where the point and the letter of the exponent
stand. A token keeps its parts apart and denotes by its parts. Both agree on
every token that can be read.

## Main definitions

* `Lexeme`: A kind of token and its characters.
* `Lexeme.integer`: The integer that a sign and digits denote.
* `Lexeme.magnitude`: The rational that digits, a point and an exponent
  denote.
* `Lexeme.value`: What a lexeme denotes.
* `Lexeme.IsTooLong`: A lexeme that is not read for its digits.
* `Token.lexeme`: A token as a lexeme.

## Theorems

* `Binary64.ofDecimal_eq_round`: Reading a decimal is rounding it.
* `Atom.value_lexeme`: An atom that can be read denotes what its characters
  denote.
-/

namespace PicoTime

/-- A kind of token and the characters it was found as. -/
structure Lexeme where
  terminal : Terminal
  text : List Char

namespace Lexeme

/-- Whether a text has a minus sign in front. -/
def isNegative (text : List Char) : Bool :=
  text.head? = some '-'

/-- The number that the digits of a text denote, whatever stands around
    them. -/
def digitValue (text : List Char) : Nat :=
  numeralValue (text.filter isDigit)

/-- How many digits a text has. -/
def digitCount (text : List Char) : Nat :=
  (text.filter isDigit).length

/-- The integer that a sign and digits denote. -/
def integer (text : List Char) : Int :=
  if isNegative text then -(digitValue text : Int) else digitValue text

/-- Whether a character begins an exponent. -/
def isExponentLetter (c : Char) : Bool :=
  c = 'e' || c = 'E'

/-- What stands before an exponent. -/
def mantissa (text : List Char) : List Char :=
  text.takeWhile fun c => !isExponentLetter c

/-- What stands behind the letter of an exponent. -/
def exponent (text : List Char) : List Char :=
  (text.dropWhile fun c => !isExponentLetter c).drop 1

/-- The number of digits behind the point. -/
def places (text : List Char) : Nat :=
  ((mantissa text).dropWhile fun c => c ≠ '.').countP isDigit

/-- The rational that digits, a point and an exponent denote, without the
    sign. -/
def magnitude (text : List Char) : Rat :=
  (digitValue (mantissa text) : Rat)
    * (10 : Rat) ^ (integer (exponent text) - (places text : Int))

/-- What a lexeme denotes: the integer, the double nearest to the rational,
    or the infinity or NaN that it names. All others are nil. -/
def value : Lexeme → Datum
  | ⟨.int, text⟩ => .int (integer text)
  | ⟨.float, text⟩ =>
    .float (.round (isNegative text) (if isNegative text then -magnitude text else magnitude text))
  | ⟨.special, text⟩ =>
    .float (if ['I', 'N', 'F'].isSuffixOf text then .infinite (isNegative text)
      else .nan (isNegative text))
  | _ => .nil

/-- The lexeme is an integer with more digits than are read. -/
def IsTooLong (lexeme : Lexeme) : Prop :=
  lexeme.terminal = .int ∧ numeralLimit < digitCount lexeme.text

instance (lexeme : Lexeme) : Decidable lexeme.IsTooLong :=
  inferInstanceAs (Decidable (_ ∧ _))

/-- What reading a lexeme stops with. -/
def obstacles (lexeme : Lexeme) : List Fault :=
  if lexeme.IsTooLong then [.argument (.numeralTooLong (digitCount lexeme.text))] else []

end Lexeme

/-- A token as a lexeme. -/
def Token.lexeme (t : Token) : Lexeme :=
  ⟨t.terminal, t.text⟩

/-- Reading a decimal is rounding the number it denotes. -/
theorem Binary64.ofDecimal_eq_round (d : Decimal) :
    ofDecimal d
      = round d.negative (if d.negative then -d.magnitude else d.magnitude) := by
  by_cases h : d.digits = 0
  · -- A zero takes its sign from the decimal.
    have hmag : d.magnitude = 0 := by rw [Decimal.magnitude, h, Nat.cast_zero, zero_mul]
    rw [ofDecimal, if_pos h, hmag, neg_zero, ite_self, round, if_pos rfl]
  · have hpow : (0 : Rat) < (10 : Rat) ^ d.exponent := zpow_pos (by norm_num) _
    have hdigits : (0 : Rat) < d.digits := by exact_mod_cast Nat.pos_of_ne_zero h
    have hmag : 0 < d.magnitude := mul_pos hdigits hpow
    rw [ofDecimal_eq_ofRank d h]
    cases d.negative with
    | true =>
        have hneg : -d.magnitude < 0 := neg_lt_zero.mpr hmag
        rw [if_pos rfl, round, if_neg hneg.ne, if_pos hneg, neg_neg]
    | false =>
        rw [if_neg (by decide), round, if_neg hmag.ne', if_neg (not_lt.mpr hmag.le)]

namespace Lexeme

theorem isNegative_append (sign : Sign) (cs : List Char)
    (h : ∀ c ∈ cs.head?, isDigit c ∨ c = '.') : isNegative (sign.text ++ cs) = sign.isMinus := by
  cases sign with
  | plus => rfl
  | minus => rfl
  | none =>
      rw [isNegative, Sign.text, List.nil_append]
      refine decide_eq_false fun hc => ?_
      exact absurd (h '-' hc) (by decide)

theorem filter_sign (sign : Sign) : sign.text.filter isDigit = [] := by
  cases sign <;> decide

theorem filter_digits (digits : List Char) (h : ∀ c ∈ digits, isDigit c) :
    digits.filter isDigit = digits :=
  List.filter_eq_self.mpr h

/-- A sign and digits denote the signed number of the digits. -/
theorem integer_append (sign : Sign) (digits cs : List Char) (h : IsNumeral digits)
    (hcs : cs.filter isDigit = []) :
    integer (sign.text ++ (digits ++ cs))
      = if sign.isMinus then -(numeralValue digits : Int) else numeralValue digits := by
  have hsign := isNegative_append sign (digits ++ cs) (head_numeral digits cs h)
  rw [integer, hsign, digitValue, List.filter_append, List.filter_append, filter_sign,
    filter_digits digits h.2, hcs, List.nil_append, List.append_nil]

/-- A sign is no digit, and neither is what else is not. -/
theorem digitCount_append (sign : Sign) (digits cs : List Char) (h : IsNumeral digits)
    (hcs : cs.filter isDigit = []) : digitCount (sign.text ++ (digits ++ cs)) = digits.length := by
  rw [digitCount, List.filter_append, List.filter_append, filter_sign, filter_digits digits h.2,
    hcs, List.nil_append, List.append_nil]

theorem not_exponentLetter_of_isDigit (c : Char) (h : isDigit c) : isExponentLetter c = false := by
  by_contra hc
  rw [Bool.not_eq_false, isExponentLetter, Bool.or_eq_true, decide_eq_true_eq,
    decide_eq_true_eq] at hc
  rcases hc with rfl | rfl <;> exact absurd h (by decide)

theorem not_exponentLetter_of_mem_sign (sign : Sign) :
    ∀ c ∈ sign.text, isExponentLetter c = false := by
  intro c hc
  cases sign with
  | none => exact absurd hc List.not_mem_nil
  | plus => rw [List.mem_singleton.mp hc, isExponentLetter]; decide
  | minus => rw [List.mem_singleton.mp hc, isExponentLetter]; decide

theorem ne_point_of_isDigit (c : Char) (h : isDigit c) : c ≠ '.' := by
  rintro rfl
  exact absurd h (by decide)

theorem ne_point_of_mem_sign (sign : Sign) : ∀ c ∈ sign.text, c ≠ '.' := by
  intro c hc
  cases sign with
  | none => exact absurd hc List.not_mem_nil
  | plus => rw [List.mem_singleton.mp hc]; decide
  | minus => rw [List.mem_singleton.mp hc]; decide

/-- An exponent is split off where its letter stands. -/
theorem mantissa_append (cs : List Char) (exponent : Option Exponent)
    (hcs : ∀ c ∈ cs, isExponentLetter c = false) (he : ∀ e ∈ exponent, e.WellFormed) :
    mantissa (cs ++ exponent.elim [] Exponent.text) = cs
      ∧ integer (Lexeme.exponent (cs ++ exponent.elim [] Exponent.text))
        = exponent.elim 0 Exponent.value := by
  -- No letter of an exponent stands before the exponent.
  have hall : ∀ c ∈ cs, (!isExponentLetter c) = true := by
    intro c hc
    rw [hcs c hc]
    rfl
  rw [mantissa, Lexeme.exponent, List.takeWhile_append_of_pos hall,
    List.dropWhile_append_of_pos hall]
  cases exponent with
  | none => exact ⟨List.append_nil cs, rfl⟩
  | some e =>
      have hletter : ¬ (!isExponentLetter e.letter) = true := by
        rcases (he e rfl).1 with h | h <;> rw [h] <;> decide
      have hvalue := integer_append e.sign e.digits [] (he e rfl).2 rfl
      rw [List.append_nil] at hvalue
      have htake := List.takeWhile_cons_of_neg (p := fun c => !isExponentLetter c)
        (l := e.sign.text ++ e.digits) hletter
      have hdrop := List.dropWhile_cons_of_neg (p := fun c => !isExponentLetter c)
        (l := e.sign.text ++ e.digits) hletter
      rw [Option.elim_some, Exponent.text, htake, hdrop, List.append_nil, List.drop_succ_cons,
        List.drop_zero]
      exact ⟨rfl, hvalue⟩

/-- The rational a double's characters denote, by the parts they come from. -/
theorem magnitude_append (cs : List Char) (exponent : Option Exponent)
    (hcs : ∀ c ∈ cs, isExponentLetter c = false) (he : ∀ e ∈ exponent, e.WellFormed) :
    magnitude (cs ++ exponent.elim [] Exponent.text)
      = (digitValue cs : Rat) * (10 : Rat) ^ (exponent.elim 0 Exponent.value
        - ((cs.dropWhile fun c => c ≠ '.').countP isDigit : Int)) := by
  rcases mantissa_append cs exponent hcs he with ⟨hmantissa, hexponent⟩
  rw [magnitude, places, hmantissa, hexponent]

end Lexeme

namespace Atom

open Lexeme

/-- A double's characters denote the double of its parts. -/
theorem value_float (cs : List Char) (d : Decimal) (hsign : isNegative cs = d.negative)
    (hmag : Lexeme.magnitude cs = d.magnitude) :
    (Lexeme.mk .float cs).value = .float (.ofDecimal d) := by
  rw [Lexeme.value, hsign, hmag, Binary64.ofDecimal_eq_round]

theorem value_fixed (sign : Sign) (whole fraction : List Char) (exponent : Option Exponent)
    (h : (fixed sign whole fraction exponent).WellFormed) :
    (Lexeme.mk .float (fixed sign whole fraction exponent).text).value
      = (fixed sign whole fraction exponent).value := by
  rcases h with ⟨hwhole, ⟨-, hfraction⟩, he⟩
  refine value_float _ ⟨sign.isMinus, numeralValue (whole ++ fraction),
    exponent.elim 0 Exponent.value - fraction.length⟩ ?_ ?_
  · rw [text, List.append_assoc]
    exact isNegative_append sign _ (head_point whole _ hwhole)
  have htext : (fixed sign whole fraction exponent).text
      = (sign.text ++ (whole ++ '.' :: fraction)) ++ exponent.elim [] Exponent.text := by
    simp only [text, List.append_assoc, List.cons_append]
  have hletters : ∀ c ∈ sign.text ++ (whole ++ '.' :: fraction), isExponentLetter c = false := by
    intro c hc
    rcases List.mem_append.mp hc with hc | hc
    · exact not_exponentLetter_of_mem_sign sign c hc
    rcases List.mem_append.mp hc with hc | hc
    · exact not_exponentLetter_of_isDigit c (hwhole c hc)
    rcases List.mem_cons.mp hc with rfl | hc
    · rfl
    · exact not_exponentLetter_of_isDigit c (hfraction c hc)
  -- Sign and point are no digits.
  have hdigits : digitValue (sign.text ++ (whole ++ '.' :: fraction))
      = numeralValue (whole ++ fraction) := by
    have hpoint : ¬ isDigit '.' = true := by decide
    rw [digitValue, List.filter_append, List.filter_append, filter_sign,
      filter_digits whole hwhole, List.filter_cons_of_neg hpoint,
      filter_digits fraction hfraction, List.nil_append]
  have hplaces : ((sign.text ++ (whole ++ '.' :: fraction)).dropWhile
      fun c => c ≠ '.').countP isDigit = fraction.length := by
    have hbefore : ∀ c ∈ sign.text ++ whole, decide (c ≠ '.') = true := by
      intro c hc
      rw [decide_eq_true_eq]
      rcases List.mem_append.mp hc with hc | hc
      · exact ne_point_of_mem_sign sign c hc
      · exact ne_point_of_isDigit c (hwhole c hc)
    rw [← List.append_assoc, List.dropWhile_append_of_pos hbefore]
    exact List.countP_eq_length.mpr hfraction
  rw [htext, magnitude_append _ exponent hletters he, hdigits, hplaces]
  rfl

theorem value_scaled (sign : Sign) (whole : List Char) (e : Exponent)
    (h : (scaled sign whole e).WellFormed) :
    (Lexeme.mk .float (scaled sign whole e).text).value = (scaled sign whole e).value := by
  rcases h with ⟨hwhole, he⟩
  refine value_float _ ⟨sign.isMinus, numeralValue whole, e.value⟩ ?_ ?_
  · rw [text, List.append_assoc]
    exact isNegative_append sign _ (head_numeral whole _ hwhole)
  have hletters : ∀ c ∈ sign.text ++ whole, isExponentLetter c = false := by
    intro c hc
    rcases List.mem_append.mp hc with hc | hc
    · exact not_exponentLetter_of_mem_sign sign c hc
    · exact not_exponentLetter_of_isDigit c (hwhole.2 c hc)
  have hdigits : digitValue (sign.text ++ whole) = numeralValue whole := by
    rw [digitValue, List.filter_append, filter_sign, filter_digits whole hwhole.2,
      List.nil_append]
  -- Without a point no digit stands behind one.
  have hplaces : (sign.text ++ whole).dropWhile (fun c => c ≠ '.') = [] := by
    rw [List.dropWhile_eq_nil_iff]
    intro c hc
    rw [decide_eq_true_eq]
    rcases List.mem_append.mp hc with hc | hc
    · exact ne_point_of_mem_sign sign c hc
    · exact ne_point_of_isDigit c (hwhole.2 c hc)
  have hmag := magnitude_append (sign.text ++ whole) (some e) hletters
    (fun e' he' => Option.some.inj he' ▸ he)
  rw [Option.elim_some] at hmag
  rw [text, hmag, hdigits, hplaces, List.countP_nil, Option.elim_some, Nat.cast_zero, sub_zero]
  rfl

/-- A name ends in its mark. -/
theorem value_special (sign : Sign) (whole fraction mark : List Char) (h : IsNumeral whole) :
    (Lexeme.mk .special (sign.text ++ whole ++ '.' :: (fraction ++ mark))).value
      = .float (if ['I', 'N', 'F'].isSuffixOf
          (sign.text ++ whole ++ '.' :: (fraction ++ mark)) then .infinite sign.isMinus
        else .nan sign.isMinus) := by
  rw [Lexeme.value, List.append_assoc, isNegative_append sign _ (head_numeral whole _ h)]

theorem filter_point (point : Bool) : (if point then ['.'] else []).filter isDigit = [] := by
  cases point <;> decide

/-- An atom that can be read denotes what its characters denote. -/
theorem value_lexeme (a : Atom) (h : a.WellFormed) : (Token.atom a).lexeme.value = a.value := by
  cases a with
  | nil => rfl
  | int sign digits point =>
      have hpoint := filter_point point
      have hvalue := integer_append sign digits (if point then ['.'] else []) h hpoint
      rw [← List.append_assoc] at hvalue
      exact congrArg Datum.int hvalue
  | fixed sign whole fraction exponent => exact value_fixed sign whole fraction exponent h
  | scaled sign whole e => exact value_scaled sign whole e h
  | infinity sign whole fraction =>
      refine (value_special sign whole fraction infinityMark h.1).trans ?_
      rw [if_pos]
      · rfl
      · rw [List.isSuffixOf_iff_suffix]
        refine ⟨sign.text ++ whole ++ '.' :: (fraction ++ ['e', '+']), ?_⟩
        simp only [infinityMark, List.append_assoc, List.cons_append, List.nil_append]
  | nan sign whole fraction =>
      refine (value_special sign whole fraction nanMark h.1).trans ?_
      rw [if_neg]
      · rfl
      · -- The last letters differ.
        rw [List.isSuffixOf_iff_suffix]
        rintro ⟨before, hbefore⟩
        have hlast := congrArg List.getLast? hbefore
        rw [List.getLast?_append, ← List.singleton_append (l := fraction ++ nanMark),
          ← List.append_assoc, ← List.append_assoc, List.getLast?_append] at hlast
        have hletter : some 'F' = some 'N' := hlast
        exact absurd hletter (by decide)

/-- Reading an atom stops with the obstacle that its characters are. -/
theorem head?_obstacles_lexeme (a : Atom) (h : a.WellFormed) :
    (Token.atom a).lexeme.obstacles.head? = stop? (orFault a.datum) := by
  cases a with
  | int sign digits point =>
      have hcount :
          digitCount (Token.atom (.int sign digits point)).lexeme.text = digits.length := by
        rw [← digitCount_append sign digits _ h (filter_point point), ← List.append_assoc]
        rfl
      rw [Lexeme.obstacles, hcount, Atom.datum]
      by_cases hlen : digits.length ≤ numeralLimit
      · rw [if_pos hlen, if_neg fun hlong => ?_]
        · rfl
        · rw [Lexeme.IsTooLong, hcount] at hlong
          omega
      · have hlong : (Token.atom (.int sign digits point)).lexeme.IsTooLong :=
          ⟨rfl, by rw [hcount]; omega⟩
        rw [if_neg hlen, if_pos hlong]
        rfl
  -- Only integers are counted.
  | nil | fixed _ _ _ _ | scaled _ _ _ | infinity _ _ _ | nan _ _ _ =>
      rw [Lexeme.obstacles, if_neg fun hlong => Terminal.noConfusion hlong.1]
      rfl

/-- An atom that is read is read as its value. -/
theorem value_of_datum (a : Atom) (d : Datum) (h : a.datum = .ok d) : a.value = d := by
  cases a with
  | int sign digits point =>
      rw [Atom.datum] at h
      split_ifs at h
      exact Except.ok.inj h
  | nil | fixed _ _ _ _ | scaled _ _ _ | infinity _ _ _ | nan _ _ _ => exact Except.ok.inj h

end Atom

end PicoTime
