import PicoTime.Proofs.Carries
import PicoTime.Proofs.Routes
import Mathlib.Data.Int.Bitwise

/-!
# The Normal Form of Components

Many components stand for one number of picoseconds, and one of them is
normal: the one whose lower places are all digits. Normalising finds it, from
components of any size and sign, and the argument has two halves that do not
look at the carries again. The carries keep the count, and two normal forms
with one count are equal. So what is normalised alike is exactly what counts
alike, and a normal form is normalised to itself.

The places below the second are divided by their radix, and the low seconds,
whose radix is a power of two, may be taken apart by their bits instead. For
negative integers this is right only because a shift rounds toward minus
infinity and a mask keeps the bits of the two's complement, which is the
non-negative remainder; and because the high digit is given what the shift
leaves before the mask clears it.

## Main definitions

* `Components.IsNormal`: The lower places are digits.
* `Components.normalizeByBits`: Carries with a shift and a mask for the low
  seconds.

## Theorems

* `Int.land_lowMask`: Masking is taking the remainder.
* `Components.normalizeByBits_eq`: A shift and a mask normalise.
* `Components.eq_of_isNormal`: One count has one normal form.
* `Components.normalize_isNormal_unique`: Normalising finds it.
-/

namespace PicoTime

/-- The places below the high seconds are within their ranges. -/
structure Components.IsNormal (c : Components) : Prop where
  low : 0 ≤ c.low ∧ c.low < 65536
  micro : 0 ≤ c.micro ∧ c.micro < 1000000
  pico : 0 ≤ c.pico ∧ c.pico < 1000000

/-! ## Bits of the low seconds -/

/-- The bits that a number of sixteen bits has and another does not are those
    of what the other's remainder leaves of the mask. -/
theorem ldiff_lowMask (m : Nat) : Nat.ldiff 65535 m = 65535 - m % 65536 := by
  have hmask : 65535 = 2 ^ 16 - 1 := by norm_num
  have hrest : 65535 - m % 65536 = 2 ^ 16 - (m % 2 ^ 16 + 1) := by omega
  apply Nat.eq_of_testBit_eq
  intro i
  rw [hrest, Nat.testBit_two_pow_sub_succ (Nat.mod_lt _ (by norm_num)), Nat.testBit_mod_two_pow,
    hmask, Nat.testBit_ldiff, Nat.testBit_two_pow_sub_one]
  by_cases hi : i < 16
  · simp only [hi, decide_true, Bool.true_and]
  · simp only [hi, decide_false, Bool.false_and]

/-- Masking the low sixteen bits is taking the remainder, for negative
    integers as well. -/
theorem land_lowMask (n : Int) : Int.land n 65535 = n % 65536 := by
  cases n with
  | ofNat m =>
      have hmask : m &&& 65535 = m % 65536 := Nat.and_two_pow_sub_one_eq_mod m 16
      change ((m &&& 65535 : Nat) : Int) = (m : Int) % 65536
      rw [hmask]
      rfl
  | negSucc m =>
      change ((Nat.ldiff 65535 m : Nat) : Int) = Int.negSucc m % 65536
      rw [ldiff_lowMask, Int.negSucc_emod m (by decide)]
      omega

/-- Shifting by sixteen bits is dividing, toward minus infinity. -/
theorem shiftRight_lowBits (n : Int) : n >>> (16 : Nat) = n / 65536 := by
  rw [Int.shiftRight_eq_div_pow]
  rfl

namespace Components

/-- The components after carries from the lowest place up, with the low
    seconds taken apart by their bits. -/
def normalizeByBits (c : Components) : Components :=
  let micro := c.micro + c.pico / 1000000
  let low := c.low + micro / 1000000
  { high := c.high + low >>> (16 : Nat)
    low := Int.land low 65535
    micro := micro % 1000000
    pico := c.pico % 1000000 }

/-- A shift and a mask do what a division does. -/
theorem normalizeByBits_eq (c : Components) : c.normalizeByBits = c.normalize.toComponents := by
  simp only [normalizeByBits, shiftRight_lowBits, land_lowMask]
  rfl

/-! ## The normal form -/

theorem isNormal_toComponents (t : Timestamp) : t.toComponents.IsNormal :=
  ⟨t.low_mem, t.micro_mem, t.pico_mem⟩

/-- Normal forms with one count are equal. -/
theorem eq_of_isNormal (c d : Components) (hc : c.IsNormal) (hd : d.IsNormal)
    (h : c.picoseconds = d.picoseconds) : c = d := by
  rcases c with ⟨high, low, micro, pico⟩
  rcases d with ⟨high', low', micro', pico'⟩
  rcases hc with ⟨hlow, hmicro, hpico⟩
  rcases hd with ⟨hlow', hmicro', hpico'⟩
  dsimp only at hlow hmicro hpico hlow' hmicro' hpico'
  simp only [picoseconds] at h
  rw [Components.mk.injEq]
  omega

/-- Normalising finds the normal form: its lower places are digits, whatever
    their size and sign were, and it has the count of the components. No other
    components are normal with that count. So two components are normalised
    alike exactly if they have one count, and what is normal already stays as
    it is. A shift and a mask for the low seconds lead to the same places. -/
theorem normalize_isNormal_unique (c : Components) :
    (c.normalize.toComponents.IsNormal ∧
      c.normalize.toComponents.picoseconds = c.picoseconds) ∧
    (∀ d : Components, d.IsNormal → d.picoseconds = c.picoseconds →
      d = c.normalize.toComponents) ∧
    (∀ d : Components, c.normalize = d.normalize ↔ c.picoseconds = d.picoseconds) ∧
    c.normalize.toComponents.normalize = c.normalize ∧
    c.normalizeByBits = c.normalize.toComponents := by
  have hnormal := isNormal_toComponents c.normalize
  have hcount : c.normalize.toComponents.picoseconds = c.picoseconds := picoseconds_normalize c
  refine ⟨⟨hnormal, hcount⟩, fun d hd hsame => ?_, fun d => ⟨fun h => ?_, normalize_congr c d⟩,
    Timestamp.normalize_digits _, normalizeByBits_eq c⟩
  · exact eq_of_isNormal d _ hd hnormal (hsame.trans hcount.symm)
  · rw [← picoseconds_normalize c, ← picoseconds_normalize d, h]

-- One picosecond less than nothing borrows from every place.
example : (normalizeByBits ⟨0, 0, 0, -1⟩) = ⟨-1, 65535, 999999, 999999⟩ := by
  rw [normalizeByBits_eq]
  decide

end Components

end PicoTime
