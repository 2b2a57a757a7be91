/-!
# Decimal Digits

The characters that count as decimal digits: the general category *Nd* of
Unicode 14.0. The standard lays every script's digits out as a run of ten
consecutive code points in ascending order, so the table holds each run's
zero and a digit's value is its distance from there.

## Main definitions

* `digitZeros`: The zeros of all runs.
* `digitValue?`: The value of a decimal digit.
* `isDigit`: Whether a character is a decimal digit.
* `numeralValue`: The number a string of digits denotes.

## Theorems

* `digitValue?_lt`: A digit's value is below ten.
* `digitValue?_of_isDigit`: The ASCII digits are among them.
* `numeralValue_toDigits`: The decimal digits of a number denote it.
-/

namespace PicoTime

/-- The code points of the digits zero, in ascending order. -/
def digitZeros : List Nat :=
  [0x30, 0x660, 0x6f0, 0x7c0, 0x966, 0x9e6, 0xa66, 0xae6, 0xb66, 0xbe6,
   0xc66, 0xce6, 0xd66, 0xde6, 0xe50, 0xed0, 0xf20, 0x1040, 0x1090, 0x17e0,
   0x1810, 0x1946, 0x19d0, 0x1a80, 0x1a90, 0x1b50, 0x1bb0, 0x1c40, 0x1c50,
   0xa620, 0xa8d0, 0xa900, 0xa9d0, 0xa9f0, 0xaa50, 0xabf0, 0xff10, 0x104a0,
   0x10d30, 0x11066, 0x110f0, 0x11136, 0x111d0, 0x112f0, 0x11450, 0x114d0,
   0x11650, 0x116c0, 0x11730, 0x118e0, 0x11950, 0x11c50, 0x11d50, 0x11da0,
   0x16a60, 0x16ac0, 0x16b50, 0x1d7ce, 0x1d7d8, 0x1d7e2, 0x1d7ec, 0x1d7f6,
   0x1e140, 0x1e2f0, 0x1e950, 0x1fbf0]

/-- The value of a decimal digit of any script. -/
def digitValue? (c : Char) : Option Nat :=
  digitZeros.findSome? fun start =>
    if start ≤ c.toNat ∧ c.toNat < start + 10 then some (c.toNat - start)
    else none

/-- Whether a character is a decimal digit of any script. -/
def isDigit (c : Char) : Bool :=
  (digitValue? c).isSome

/-- The number that digits denote in base ten, the most significant first. -/
def numeralValue (digits : List Char) : Nat :=
  digits.foldl (fun n c => 10 * n + (digitValue? c).getD 0) 0

theorem digitValue?_lt {c : Char} {n : Nat} (h : digitValue? c = some n) :
    n < 10 := by
  obtain ⟨start, _, hz⟩ := List.exists_of_findSome?_eq_some h
  split at hz
  · simp only [Option.some.injEq] at hz
    omega
  · simp at hz

theorem digitValue?_of_isDigit {c : Char} (h : c.isDigit) :
    digitValue? c = some (c.toNat - 48) := by
  have hc : 48 ≤ c.toNat ∧ c.toNat < 58 := by
    simp only [Char.isDigit, Bool.and_eq_true, decide_eq_true_eq,
      ge_iff_le, UInt32.le_iff_toNat_le] at h
    exact ⟨h.1, Nat.lt_succ_of_le h.2⟩
  simp [digitValue?, digitZeros, hc]

theorem isDigit_of_isDigit {c : Char} (h : c.isDigit) : isDigit c := by
  simp [isDigit, digitValue?_of_isDigit h]

/-- The decimal digits of a number denote that number. -/
theorem numeralValue_toDigits (n : Nat) :
    numeralValue (Nat.toDigits 10 n) = n := by
  have hfold : ∀ (ds : List Char) (start : Nat), (∀ c ∈ ds, c.isDigit) →
      ds.foldl (fun n c => 10 * n + (digitValue? c).getD 0) start
        = Nat.ofDigitChars 10 ds start := by
    intro ds
    induction ds with
    | nil => intro start _; simp
    | cons c ds ih =>
      intro start hds
      rw [List.foldl_cons, Nat.ofDigitChars_cons,
        ih _ fun d hd => hds d (List.mem_cons_of_mem c hd),
        digitValue?_of_isDigit (hds c List.mem_cons_self)]
      rfl
  rw [numeralValue, hfold _ _ fun c hc =>
    Nat.isDigit_of_mem_toDigits (by decide) (by decide) hc,
    Nat.ofDigitChars_ten_toDigits]

end PicoTime
