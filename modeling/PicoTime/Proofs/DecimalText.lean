import Mathlib
import PicoTime.Expression.Value
import PicoTime.Proofs.AtomText
import PicoTime.Proofs.ShortestDecimal

/-!
# The Text of a Decimal Reads Back

A decimal is laid out in one of five ways: with zeros before its digits, with
zeros behind them, with the point among them, or in scientific notation with
the point or without it. In each the text is that of a double in its written
parts, and the parts denote the number that was laid out.

All five compare with the same description of that number: its significant
digits as a whole number, times the power of ten that puts the leading digit
where it belongs. Trailing zeros are left out of the digits and come back as
powers of ten.

## Theorems

* `numeralValue_append`: Digits behind others push them up.
* `significantDigits_append_zeros`: Only zeros are left out.
* `Decimal.magnitude_eq_significant`: The number by its significant digits.
* `Decimal.exists_atom_render`: The text of a decimal denotes it.
-/

namespace PicoTime

theorem numeralValue_foldl (digits : List Char) (start : Nat) :
    digits.foldl (fun n c => 10 * n + (digitValue? c).getD 0) start
      = start * 10 ^ digits.length + numeralValue digits := by
  induction digits generalizing start with
  | nil => simp [numeralValue]
  | cons c digits ih =>
      rw [numeralValue, List.foldl_cons, List.foldl_cons, ih, ih, List.length_cons]
      ring

/-- Digits behind others push them up. -/
theorem numeralValue_append (upper lower : List Char) :
    numeralValue (upper ++ lower)
      = numeralValue upper * 10 ^ lower.length + numeralValue lower := by
  rw [numeralValue, List.foldl_append, numeralValue_foldl lower]
  rfl

/-- A zero before other digits does not count. -/
theorem numeralValue_cons_zero (digits : List Char) :
    numeralValue ('0' :: digits) = numeralValue digits := by
  have hzero : (digitValue? '0').getD 0 = 0 := by decide
  unfold numeralValue
  rw [List.foldl_cons, hzero]

theorem isNumeral_zero : IsNumeral ['0'] := by
  refine ⟨List.cons_ne_nil _ _, fun c hc => ?_⟩
  rw [List.mem_singleton.mp hc]
  decide

namespace Decimal

theorem numeralValue_zeros (n : Nat) : numeralValue (zeros n) = 0 := by
  induction n with
  | zero => rfl
  | succ n ih => exact (numeralValue_cons_zero (zeros n)).trans ih

theorem length_zeros (n : Nat) : (zeros n).length = n :=
  List.length_replicate

theorem isDigit_zeros (n : Nat) : ∀ c ∈ zeros n, isDigit c := by
  intro c hc
  rw [List.eq_of_mem_replicate hc]
  decide

theorem isNumeral_toDigits (n : Nat) : IsNumeral (Nat.toDigits 10 n) := by
  refine ⟨Nat.toDigits_ne_nil, fun c hc => ?_⟩
  exact isDigit_of_isDigit (Nat.isDigit_of_mem_toDigits (by omega) (by omega) hc)

/-- Only zeros are left out of the significant digits. -/
theorem significantDigits_append_zeros (n : Nat) :
    ∃ k, Nat.toDigits 10 n = significantDigits n ++ zeros k := by
  -- From the end backwards, what is left out is a run of zeros.
  have hzeros : ∃ k, (Nat.toDigits 10 n).reverse.takeWhile (· = '0') = zeros k := by
    refine ⟨_, List.eq_replicate_iff.mpr ⟨rfl, fun c hc => ?_⟩⟩
    have hc := List.mem_takeWhile_imp (p := fun c : Char => decide (c = '0')) hc
    exact of_decide_eq_true hc
  rcases hzeros with ⟨k, hk⟩
  refine ⟨k, ?_⟩
  calc Nat.toDigits 10 n
      = ((Nat.toDigits 10 n).reverse.takeWhile (· = '0')
          ++ (Nat.toDigits 10 n).reverse.dropWhile (· = '0')).reverse := by
        rw [List.takeWhile_append_dropWhile, List.reverse_reverse]
    _ = significantDigits n
          ++ ((Nat.toDigits 10 n).reverse.takeWhile (· = '0')).reverse := by
        rw [List.reverse_append, significantDigits]
    _ = significantDigits n ++ zeros k := by
        rw [hk, zeros, List.reverse_replicate]

theorem isDigit_significantDigits (n : Nat) : ∀ c ∈ significantDigits n, isDigit c := by
  rcases significantDigits_append_zeros n with ⟨k, hk⟩
  intro c hc
  apply (isNumeral_toDigits n).2
  rw [hk]
  exact List.mem_append_left _ hc

/-- A number that is not zero has a significant digit. -/
theorem significantDigits_ne_nil (n : Nat) (h : n ≠ 0) : significantDigits n ≠ [] := by
  rcases significantDigits_append_zeros n with ⟨k, hk⟩
  intro hnil
  have hvalue := numeralValue_toDigits n
  rw [hk, hnil, List.nil_append, numeralValue_zeros] at hvalue
  exact h hvalue.symm

/-- A decimal's number by its significant digits and the place of the first
    of them. -/
theorem magnitude_eq_significant (d : Decimal) :
    d.magnitude = (numeralValue (significantDigits d.digits) : Rat)
      * (10 : Rat) ^ ((decimalLog d.digits : Int) + d.exponent + 1
        - (significantDigits d.digits).length) := by
  rcases significantDigits_append_zeros d.digits with ⟨k, hk⟩
  have hvalue : d.digits = numeralValue (significantDigits d.digits) * 10 ^ k := by
    have h := numeralValue_toDigits d.digits
    rw [hk, numeralValue_append, numeralValue_zeros, length_zeros, Nat.add_zero] at h
    exact h.symm
  -- The logarithm is the place of the first of all digits.
  have hlength : (decimalLog d.digits : Int) + 1
      = (significantDigits d.digits).length + k := by
    have hpos : 0 < (Nat.toDigits 10 d.digits).length := Nat.length_toDigits_pos
    have h := congrArg List.length hk
    rw [List.length_append, length_zeros] at h
    unfold decimalLog
    omega
  have hexponent : (decimalLog d.digits : Int) + d.exponent + 1
      - (significantDigits d.digits).length = k + d.exponent := by omega
  rw [hexponent, zpow_add₀ (by norm_num), zpow_natCast, ← mul_assoc, magnitude]
  congr 1
  conv_lhs => rw [hvalue, Nat.cast_mul, Nat.cast_pow, Nat.cast_ofNat]

end Decimal

/-- An atom that denotes the number of a decimal. -/
def Atom.Denotes (a : Atom) (d : Decimal) : Prop :=
  ∃ e : Decimal, a.value = .float (.ofDecimal e) ∧ e.negative = d.negative
    ∧ e.magnitude = d.magnitude

namespace Decimal

/-- A decimal's sign as it is written. -/
def sign (d : Decimal) : Sign :=
  if d.negative then .minus else .none

theorem text_sign (d : Decimal) : d.sign.text = if d.negative then ['-'] else [] := by
  rw [sign]
  cases d.negative <;> rfl

theorem isMinus_sign (d : Decimal) : d.sign.isMinus = d.negative := by
  rw [sign]
  cases d.negative <;> rfl

/-- A double with a point denotes all its digits, moved by the places behind
    the point. -/
theorem denotes_fixed (d : Decimal) (whole fraction : List Char) (exponent : Option Exponent)
    (h : (numeralValue (whole ++ fraction) : Rat)
      * (10 : Rat) ^ (exponent.elim 0 Exponent.value - (fraction.length : Int)) = d.magnitude) :
    (Atom.fixed d.sign whole fraction exponent).Denotes d :=
  ⟨_, rfl, isMinus_sign d, h⟩

theorem denotes_scaled (d : Decimal) (whole : List Char) (exponent : Exponent)
    (h : (numeralValue whole : Rat) * (10 : Rat) ^ exponent.value = d.magnitude) :
    (Atom.scaled d.sign whole exponent).Denotes d :=
  ⟨_, rfl, isMinus_sign d, h⟩

/-- A written exponent in its parts. -/
def writtenExponent (e : Int) : Exponent where
  letter := 'e'
  sign := if e < 0 then .minus else .plus
  digits := zeros (2 - (Nat.toDigits 10 e.natAbs).length) ++ Nat.toDigits 10 e.natAbs

theorem text_writtenExponent (e : Int) :
    (writtenExponent e).text = 'e' :: renderExponent e := by
  simp only [Exponent.text, writtenExponent, renderExponent]
  by_cases h : e < 0
  · rw [if_pos h, if_pos h]
    rfl
  · rw [if_neg h, if_neg h]
    rfl

theorem wellFormed_writtenExponent (e : Int) : (writtenExponent e).WellFormed := by
  rcases isNumeral_toDigits e.natAbs with ⟨hne, hdigits⟩
  refine ⟨Or.inl rfl, List.append_ne_nil_of_right_ne_nil _ hne, fun c hc => ?_⟩
  rcases List.mem_append.mp hc with hc | hc
  · exact isDigit_zeros _ c hc
  · exact hdigits c hc

theorem value_writtenExponent (e : Int) : (writtenExponent e).value = e := by
  have hvalue : numeralValue (writtenExponent e).digits = e.natAbs := by
    rw [writtenExponent, numeralValue_append, numeralValue_zeros, numeralValue_toDigits]
    omega
  rw [Exponent.value, hvalue]
  -- Zeros in front do not count, and the sign is always written.
  by_cases h : e < 0
  · have hsign : (writtenExponent e).sign.isMinus = true := by
      rw [writtenExponent, if_pos h]
      rfl
    rw [if_pos hsign]
    omega
  · have hsign : (writtenExponent e).sign.isMinus = false := by
      rw [writtenExponent, if_neg h]
      rfl
    rw [hsign, if_neg (by decide)]
    omega

/-- With the point in its place, the text is that of a double that denotes
    the number. -/
theorem exists_atom_positional (d : Decimal) (digits : List Char) (whole : Int)
    (h : IsNumeral digits)
    (hmag : d.magnitude = (numeralValue digits : Rat) * (10 : Rat) ^ (whole - digits.length)) :
    ∃ a : Atom, a.WellFormed ∧ a.text = d.sign.text ++ renderPositional digits whole
      ∧ a.Denotes d := by
  rcases h with ⟨hne, hdigits⟩
  have htake : ∀ n, ∀ c ∈ digits.take n, isDigit c :=
    fun n c hc => hdigits c (List.mem_of_mem_take hc)
  have hdrop : ∀ n, ∀ c ∈ digits.drop n, isDigit c :=
    fun n c hc => hdigits c (List.mem_of_mem_drop hc)
  unfold renderPositional
  by_cases hwhole : whole ≤ 0
  · -- Zeros stand between the point and the digits.
    rw [if_pos hwhole]
    refine ⟨.fixed d.sign ['0'] (zeros (-whole).toNat ++ digits) none, ?_, ?_, ?_⟩
    · refine ⟨isNumeral_zero.2, ⟨List.append_ne_nil_of_right_ne_nil _ hne, fun c hc => ?_⟩,
        by simp⟩
      rcases List.mem_append.mp hc with hc | hc
      · exact isDigit_zeros _ c hc
      · exact hdigits c hc
    · simp only [Atom.text, Option.elim_none, List.append_nil, List.append_assoc,
        List.cons_append, List.nil_append]
    · apply denotes_fixed
      have hvalue : numeralValue (['0'] ++ (zeros (-whole).toNat ++ digits))
          = numeralValue digits := by
        rw [List.singleton_append, numeralValue_cons_zero, numeralValue_append,
          numeralValue_zeros]
        omega
      rw [hvalue, hmag, List.length_append, length_zeros, Option.elim_none]
      congr 2
      omega
  · rw [if_neg hwhole]
    simp only []
    by_cases hfraction : digits.drop whole.toNat = []
    · -- No digit is left for the fraction, and zeros may be missing before it.
      have hlength : digits.length ≤ whole.toNat := List.drop_eq_nil_iff.mp hfraction
      rw [hfraction, List.take_of_length_le hlength]
      refine ⟨.fixed d.sign (digits ++ zeros (whole.toNat - digits.length)) ['0'] none,
        ?_, ?_, ?_⟩
      · refine ⟨fun c hc => ?_, isNumeral_zero, by simp⟩
        rcases List.mem_append.mp hc with hc | hc
        · exact hdigits c hc
        · exact isDigit_zeros _ c hc
      · simp only [Atom.text, Option.elim_none, List.append_assoc, List.isEmpty_nil, if_true,
          List.singleton_append]
      · apply denotes_fixed
        have hvalue : numeralValue (digits ++ zeros (whole.toNat - digits.length) ++ ['0'])
            = numeralValue digits * 10 ^ (whole.toNat - digits.length) * 10 := by
          rw [numeralValue_append, numeralValue_append, numeralValue_zeros, length_zeros]
          rfl
        have hexponent : whole - digits.length = ((whole.toNat - digits.length : Nat) : Int) := by
          omega
        rw [hvalue, hmag, hexponent, zpow_natCast, Option.elim_none, List.length_singleton]
        push_cast
        rw [mul_assoc]
        norm_num
    · -- The point stands among the digits.
      have hlength : whole.toNat ≤ digits.length := by
        by_contra hlong
        exact hfraction (List.drop_eq_nil_of_le (by omega))
      have hisEmpty : (digits.drop whole.toNat).isEmpty = false := by
        rw [List.isEmpty_eq_false_iff]
        exact hfraction
      refine ⟨.fixed d.sign (digits.take whole.toNat) (digits.drop whole.toNat) none,
        ?_, ?_, ?_⟩
      · exact ⟨htake _, ⟨hfraction, hdrop _⟩, by simp⟩
      · have hzeros : zeros (whole.toNat - digits.length) = [] := by
          rw [Nat.sub_eq_zero_of_le hlength]
          rfl
        rw [hisEmpty, hzeros, if_neg (by decide), List.append_nil]
        simp only [Atom.text, Option.elim_none, List.append_nil, List.append_assoc]
      · apply denotes_fixed
        rw [List.take_append_drop, hmag, Option.elim_none, List.length_drop]
        congr 2
        omega

/-- In scientific notation, the text is that of a double that denotes the
    number. -/
theorem exists_atom_scientific (d : Decimal) (digits : List Char) (e : Int)
    (h : IsNumeral digits)
    (hmag : d.magnitude = (numeralValue digits : Rat) * (10 : Rat) ^ (e + 1 - digits.length)) :
    ∃ a : Atom, a.WellFormed ∧ a.text = d.sign.text ++ renderScientific digits e
      ∧ a.Denotes d := by
  rcases h with ⟨hne, hdigits⟩
  have hexponent := wellFormed_writtenExponent e
  have htext := text_writtenExponent e
  have hvalue := value_writtenExponent e
  rcases digits with _ | ⟨first, fraction⟩
  · exact absurd rfl hne
  have hfirst : IsNumeral [first] := by
    refine ⟨List.cons_ne_nil _ _, fun c hc => ?_⟩
    rw [List.mem_singleton.mp hc]
    exact hdigits first List.mem_cons_self
  simp only [renderScientific, List.drop_succ_cons, List.drop_zero, List.take_succ_cons,
    List.take_zero]
  by_cases hfraction : fraction = []
  · -- A single digit has no point behind it.
    rw [hfraction] at hmag
    rw [hfraction, if_pos List.isEmpty_nil]
    refine ⟨.scaled d.sign [first] (writtenExponent e), ⟨hfirst, hexponent⟩, ?_, ?_⟩
    · rw [Atom.text, htext, List.append_assoc, List.append_nil]
    · apply denotes_scaled
      rw [hvalue, hmag, List.length_singleton]
      congr 2
      omega
  · have hisEmpty : fraction.isEmpty = false := by
      rw [List.isEmpty_eq_false_iff]
      exact hfraction
    rw [hisEmpty, if_neg (by decide)]
    refine ⟨.fixed d.sign [first] fraction (writtenExponent e), ?_, ?_, ?_⟩
    · refine ⟨hfirst.2, ⟨hfraction, fun c hc => hdigits c (List.mem_cons_of_mem _ hc)⟩, ?_⟩
      intro written hwritten
      rw [← Option.some.inj hwritten]
      exact hexponent
    · simp only [Atom.text, Option.elim_some, htext, List.append_assoc, List.cons_append]
    · apply denotes_fixed
      rw [List.singleton_append, hmag, Option.elim_some, hvalue, List.length_cons]
      congr 2
      omega

/-- The text of a decimal is that of an atom that denotes its number. -/
theorem exists_atom_render (d : Decimal) :
    ∃ a : Atom, a.WellFormed ∧ a.text = d.render ∧ a.value = .float (.ofDecimal d) := by
  have hdenotes : ∃ a : Atom, a.WellFormed ∧ a.text = d.render ∧ a.Denotes d := by
    unfold render
    rw [← text_sign]
    by_cases hzero : d.digits = 0
    · -- Zero has no significant digit and is laid out apart.
      rw [if_pos hzero]
      refine ⟨.fixed d.sign ['0'] ['0'] none, ?_, ?_, ?_⟩
      · exact ⟨isNumeral_zero.2, isNumeral_zero, by simp⟩
      · simp only [Atom.text, Option.elim_none, List.append_assoc, List.cons_append,
          List.nil_append]
      · apply denotes_fixed
        have hvalue : numeralValue (['0'] ++ ['0']) = 0 := by decide
        rw [hvalue, magnitude, hzero, Nat.cast_zero, zero_mul, zero_mul]
    · rw [if_neg hzero]
      have hdigits : IsNumeral (significantDigits d.digits) :=
        ⟨significantDigits_ne_nil d.digits hzero, isDigit_significantDigits d.digits⟩
      have hmag := magnitude_eq_significant d
      simp only []
      by_cases hplace : -4 ≤ (decimalLog d.digits : Int) + d.exponent
          ∧ (decimalLog d.digits : Int) + d.exponent < 16
      · rw [if_pos hplace]
        exact exists_atom_positional d _ _ hdigits hmag
      · rw [if_neg hplace]
        exact exists_atom_scientific d _ _ hdigits hmag
  rcases hdenotes with ⟨a, hwell, htext, e, hdatum, hsign, hmag⟩
  refine ⟨a, hwell, htext, ?_⟩
  rw [hdatum, Binary64.ofDecimal_congr e d hsign hmag]

end Decimal

end PicoTime
