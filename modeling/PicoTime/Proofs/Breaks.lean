import PicoTime.Proofs.AtomText
import PicoTime.Proofs.Cutting

/-!
# Cutting in Pieces

Blanks and brackets break a text. No token but a bracket has one of them in
it, so a reading that has begun before a break never sees beyond it: it reads
what it would read of the text that ends there, and what follows is left as it
is. A text can therefore be cut at any break into two texts whose tokens are
found apart.

Every part of an atom is scanned alike in this respect. A scanner looks at one
character after another for as long as it can use them, and a break is as
useless to it as the end of the text.

## Main definitions

* `isBreak`: Whether a character ends every atom before it.
* `Breaks`: A text that is empty or begins with a break.

## Theorems

* `takeDigits_breaks`, `afterWord?_breaks`, `exponent?_breaks`: Parts of atoms
  end before a break.
* `Atom.special?_breaks`, `Atom.float?_breaks`, `Atom.int?_breaks`: And so do
  atoms.
* `Token.first?_breaks`: The first token is found before the break.
* `Token.all?_append`: The tokens of two texts with a break between them.
-/

namespace PicoTime

/-- Whether a character ends every atom before it: a blank or a bracket. -/
def isBreak (c : Char) : Bool :=
  isBlank c || c = '(' || c = ')'

/-- A text that is empty or begins with a break. -/
def Breaks (cs : List Char) : Prop :=
  ∀ c ∈ cs.head?, isBreak c

theorem breaks_cons (c : Char) (cs : List Char) (h : isBreak c) : Breaks (c :: cs) := by
  intro d hd
  rw [← Option.some.inj hd]
  exact h

theorem isBreak_cases (c : Char) (h : isBreak c) :
    c = ' ' ∨ c = '\t' ∨ c = '\x0c' ∨ c = '\r' ∨ c = '\n' ∨ c = '(' ∨ c = ')' := by
  simpa only [isBreak, isBlank, Bool.or_eq_true, decide_eq_true_eq, or_assoc] using h

/-- A closed text is one that a break begins. -/
theorem breaks_of_closed (cs : List Char) (h : Closed cs) : Breaks cs := by
  intro c hc
  rcases h c hc with rfl | rfl <;> decide

theorem noDigit_of_breaks (cs : List Char) (h : Breaks cs) : NoDigit cs := by
  intro c hc
  rcases isBreak_cases c (h c hc) with rfl | rfl | rfl | rfl | rfl | rfl | rfl <;> decide

/-! ## Parts of atoms -/

variable (cs rest : List Char)

/-- A word without breaks is not found across one. -/
theorem afterWord?_breaks (w : List Char) (hw : w.any isBreak = false)
    (hrest : Breaks rest) : afterWord? w (cs ++ rest) = (afterWord? w cs).map (· ++ rest) := by
  induction w generalizing cs with
  | nil => rfl
  | cons c w ih =>
      rw [List.any_cons, Bool.or_eq_false_iff] at hw
      cases cs with
      | nil =>
          -- The break is none of the letters.
          rw [List.nil_append]
          refine afterWord?_eq_none c w rest fun d hd hdc => ?_
          have hbreak := hrest d hd
          rw [hdc, hw.1] at hbreak
          exact absurd hbreak (by decide)
      | cons d cs =>
          rw [List.cons_append, afterWord?, afterWord?]
          by_cases h : c = d
          · rw [if_pos h, if_pos h, ih cs hw.2]
          · rw [if_neg h, if_neg h, Option.map_none]

/-- A sign is not found beyond a break. -/
theorem takeSign_breaks (hrest : Breaks rest) :
    takeSign (cs ++ rest) = ((takeSign cs).1, (takeSign cs).2 ++ rest) := by
  cases cs with
  | nil =>
      cases rest with
      | nil => rfl
      | cons c rest =>
          rcases isBreak_cases c (hrest c rfl) with rfl | rfl | rfl | rfl | rfl | rfl | rfl <;> rfl
  | cons c cs =>
      by_cases hplus : c = '+'
      · rw [hplus]
        rfl
      by_cases hminus : c = '-'
      · rw [hminus]
        rfl
      have hnone (tail : List Char) : takeSign (c :: tail) = (.none, c :: tail) := by
        rw [takeSign]
        · rintro more ⟨⟩
          exact hplus rfl
        · rintro more ⟨⟩
          exact hminus rfl
      rw [List.cons_append, hnone, hnone]
      rfl

/-- A run of digits ends before a break. -/
theorem takeDigits_breaks (hrest : Breaks rest) :
    takeDigits (cs ++ rest) = ((takeDigits cs).1, (takeDigits cs).2 ++ rest) := by
  induction cs with
  | nil => exact takeDigits_append [] rest (by simp) (noDigit_of_breaks rest hrest)
  | cons c cs ih =>
      simp only [takeDigits, Prod.mk.injEq] at ih ⊢
      rw [List.cons_append]
      by_cases hc : isDigit c
      · rw [List.takeWhile_cons_of_pos hc, List.takeWhile_cons_of_pos hc,
          List.dropWhile_cons_of_pos hc, List.dropWhile_cons_of_pos hc, ih.1, ih.2]
        exact ⟨rfl, rfl⟩
      · rw [List.takeWhile_cons_of_neg hc, List.takeWhile_cons_of_neg hc,
          List.dropWhile_cons_of_neg hc, List.dropWhile_cons_of_neg hc]
        exact ⟨rfl, rfl⟩

/-- What is scanned before a break, with the break and what follows it left. -/
def beyond {α : Type} (rest : List Char) (scanned : Option (α × List Char)) :
    Option (α × List Char) :=
  scanned.map fun read => (read.1, read.2 ++ rest)

theorem someDigits?_breaks (hrest : Breaks rest) :
    someDigits? (cs ++ rest) = beyond rest (someDigits? cs) := by
  simp only [someDigits?, takeDigits_breaks cs rest hrest]
  by_cases h : (takeDigits cs).1.isEmpty
  · simp only [if_pos h]
    rfl
  · simp only [if_neg h]
    rfl

/-- An exponent ends before a break. -/
theorem exponent?_breaks (hrest : Breaks rest) :
    exponent? (cs ++ rest) = beyond rest (exponent? cs) := by
  cases cs with
  | nil =>
      cases rest with
      | nil => rfl
      | cons c rest =>
          rcases isBreak_cases c (hrest c rfl) with rfl | rfl | rfl | rfl | rfl | rfl | rfl <;> rfl
  | cons letter cs =>
      simp only [List.cons_append, exponent?, takeSign_breaks cs rest hrest,
        someDigits?_breaks _ rest hrest]
      by_cases h : letter = 'e' ∨ letter = 'E'
      · simp only [if_pos h]
        rcases someDigits? (takeSign cs).2 with _ | ⟨digits, more⟩ <;> rfl
      · simp only [if_neg h]
        rfl

/-! ## Atoms -/

namespace Atom

theorem nil?_breaks (hrest : Breaks rest) : nil? (cs ++ rest) = beyond rest (nil? cs) := by
  rw [nil?, nil?, afterWord?_breaks cs rest nilWord (by decide) hrest]
  rcases afterWord? nilWord cs with _ | more <;> rfl

theorem special?_breaks (hrest : Breaks rest) :
    special? (cs ++ rest) = beyond rest (special? cs) := by
  simp only [special?, takeSign_breaks cs rest hrest, someDigits?_breaks _ rest hrest]
  rcases someDigits? (takeSign cs).2 with _ | ⟨whole, afterWhole⟩
  · rfl
  simp only [beyond, Option.map_some, Option.bind_eq_bind, Option.bind_some,
    afterWord?_breaks afterWhole rest ['.'] (by decide) hrest]
  rcases afterWord? ['.'] afterWhole with _ | afterPoint
  · rfl
  simp only [Option.map_some, Option.bind_some, someDigits?_breaks afterPoint rest hrest]
  rcases someDigits? afterPoint with _ | ⟨fraction, afterFraction⟩
  · rfl
  -- Neither mark has a break in it.
  simp only [beyond, Option.map_some, Option.bind_some,
    afterWord?_breaks afterFraction rest infinityMark (by decide) hrest,
    afterWord?_breaks afterFraction rest nanMark (by decide) hrest]
  rcases afterWord? infinityMark afterFraction with _ | more
  · rcases afterWord? nanMark afterFraction with _ | more <;> rfl
  · rfl

theorem float?_breaks (hrest : Breaks rest) : float? (cs ++ rest) = beyond rest (float? cs) := by
  simp only [float?, takeSign_breaks cs rest hrest, takeDigits_breaks _ rest hrest,
    afterWord?_breaks _ rest ['.'] (by decide) hrest]
  rcases afterWord? ['.'] (takeDigits (takeSign cs).2).2 with _ | afterPoint
  · simp only [Option.map_none, exponent?_breaks _ rest hrest]
    by_cases h : (takeDigits (takeSign cs).2).1.isEmpty
    · simp only [if_pos h]
      rfl
    · simp only [if_neg h]
      rcases exponent? (takeDigits (takeSign cs).2).2 with _ | ⟨exponent, more⟩ <;> rfl
  · simp only [Option.map_some, someDigits?_breaks afterPoint rest hrest]
    rcases someDigits? afterPoint with _ | ⟨fraction, afterFraction⟩
    · rfl
    simp only [beyond, Option.map_some, exponent?_breaks afterFraction rest hrest]
    rcases exponent? afterFraction with _ | ⟨exponent, more⟩ <;> rfl

theorem int?_breaks (hrest : Breaks rest) : int? (cs ++ rest) = beyond rest (int? cs) := by
  simp only [int?, takeSign_breaks cs rest hrest, someDigits?_breaks _ rest hrest]
  rcases someDigits? (takeSign cs).2 with _ | ⟨digits, afterDigits⟩
  · rfl
  simp only [beyond, Option.map_some, afterWord?_breaks afterDigits rest ['.'] (by decide) hrest]
  rcases afterWord? ['.'] afterDigits with _ | more <;> rfl

end Atom

/-! ## Tokens -/

namespace Token

theorem ofAtom?_breaks (reader : List Char → Option (Atom × List Char))
    (h : reader (cs ++ rest) = beyond rest (reader cs)) :
    ofAtom? reader (cs ++ rest) = beyond rest (ofAtom? reader cs) := by
  rw [ofAtom?, ofAtom?, h]
  rcases reader cs with _ | ⟨a, more⟩ <;> rfl

/-- A token of one character is found in any text that is not empty. -/
theorem literal?_breaks (token : Token) (c : Char) (htext : token.text = [c]) (hcs : cs ≠ []) :
    literal? token (cs ++ rest) = beyond rest (literal? token cs) := by
  cases cs with
  | nil => exact absurd rfl hcs
  | cons d cs =>
      have hword (tail : List Char) :
          afterWord? [c] (d :: tail) = if c = d then some tail else none := rfl
      rw [literal?, literal?, htext, List.cons_append, hword, hword]
      by_cases h : c = d
      · rw [if_pos h, if_pos h]
        rfl
      · rw [if_neg h, if_neg h]
        rfl

/-- The first token of a text is found before any break behind the text. -/
theorem first?_breaks (hcs : cs ≠ []) (hrest : Breaks rest) :
    first? (cs ++ rest) = beyond rest (first? cs) := by
  have hreaders : ∀ reader ∈ readers, reader (cs ++ rest) = beyond rest (reader cs) := by
    intro reader hreader
    simp only [readers, List.mem_cons, List.not_mem_nil, or_false] at hreader
    rcases hreader with rfl | rfl | rfl | rfl | rfl | rfl | rfl
    · exact ofAtom?_breaks cs rest _ (Atom.special?_breaks cs rest hrest)
    · exact ofAtom?_breaks cs rest _ (Atom.nil?_breaks cs rest hrest)
    · exact ofAtom?_breaks cs rest _ (Atom.float?_breaks cs rest hrest)
    · exact ofAtom?_breaks cs rest _ (Atom.int?_breaks cs rest hrest)
    · exact literal?_breaks cs rest .dot '.' rfl hcs
    · exact literal?_breaks cs rest .opening '(' rfl hcs
    · exact literal?_breaks cs rest .closing ')' rfl hcs
  rw [first?_eq_findSome?, first?_eq_findSome?]
  -- The readings are tried in the same order, and each finds the same.
  generalize readers = rs at hreaders
  induction rs with
  | nil => rfl
  | cons reader rs ih =>
      rw [List.findSome?_cons, List.findSome?_cons, hreaders reader List.mem_cons_self]
      rcases reader cs with _ | read
      · exact ih fun other hother => hreaders other (List.mem_cons_of_mem reader hother)
      · rfl

/-- Two texts with a break between them are cut apart. -/
theorem all?_append (hrest : Breaks rest) :
    all? (cs ++ rest) = (all? cs).bind fun ts => (all? rest).map (ts ++ ·) := by
  -- What follows a blank or a token is shorter.
  induction hlength : cs.length using Nat.strong_induction_on generalizing cs with
  | _ n ih =>
    cases cs with
    | nil =>
        rw [List.nil_append, all?_nil, Option.bind_some]
        exact Option.map_id'.symm
    | cons c cs =>
        rw [List.length_cons] at hlength
        by_cases hblank : isBlank c
        · rw [List.cons_append, all?_blank c _ hblank, all?_blank c cs hblank]
          exact ih cs.length (by omega) cs rfl
        have hfirst := first?_breaks (c :: cs) rest (by simp) hrest
        rcases hread : first? (c :: cs) with _ | ⟨t, more⟩
        · rw [hread] at hfirst
          rw [all?_eq_none c cs (Bool.eq_false_iff.mpr hblank) hread, Option.bind_none]
          exact all?_eq_none c _ (Bool.eq_false_iff.mpr hblank) hfirst
        · rw [hread] at hfirst
          have hshorter := length_lt_of_first? hread
          rw [List.length_cons] at hshorter
          rw [all?_of_first? _ _ t hfirst, all?_of_first? _ more t hread,
            ih more.length (by omega) more rfl]
          rcases all? more with _ | ts
          · rfl
          · rcases all? rest with _ | us <;> rfl

end Token

end PicoTime
