import PicoTime.Proofs.DecodedState
import PicoTime.Proofs.Fields

/-!
# One Carry Is Enough

There are two ways to bring places back into their range. Normalising divides
every place by its radix, so it is right for any integers at all. A sum or a
difference only compares: a place that has reached its radix hands one unit
up, and a place that has fallen below zero borrows one.

A comparison is a division whose quotient can only take two values.
`carry_spec` says for which numbers it is that, and `borrow_spec` says it for
borrowing. Two digits stay one short of the bound, and this is the room that
the unit from the place below needs: the sum of two greatest digits and a
carry is still less than twice the radix, and the least difference less a
borrow is still no further below zero than the radix. So one unit per place
is enough however far a carry runs, and both ways lead to the same digits.

What the operations count follows without another look at the places. The
high digit is a floor of the count, so a check of the high digit is a check
of the exact result, at both ends of the range. An overflow has to name three
high digits and the range, and where one of them cannot be written it is that
which is said.

## Main definitions

* `Components.carryOnce`, `Components.borrowOnce`: Places after one unit has
  been carried out of, or borrowed by, each of them.
* `Components.CarriesOnce`, `Components.BorrowsOnce`: The places for which one
  unit is enough.
* `Components.digits?`: The timestamp with some components as its digits.
* `Timestamp.IsExact`: A checked operation is exact.

## Theorems

* `Timestamp.carry_spec`, `Timestamp.borrow_spec`: A comparison is a division.
* `Components.carryOnce_eq`, `Components.borrowOnce_eq`: One unit per place
  normalises.
* `Timestamp.isExact_within`: The check of a result is exact.
* `Timestamp.addWithin_subWithin_exact`: Sums and differences are exact, and
  carry as normalising does.
* `Timestamp.addWithin_stops`: A sum that is no overflow and no timestamp.
-/

namespace PicoTime

namespace Timestamp

/-! ## One place -/

/-- Below twice the radix, the carry is the quotient, and what it leaves is
    the remainder. -/
theorem carry_spec (radix digit : Int) (hnonneg : 0 ≤ digit) (hlt : digit < 2 * radix) :
    digit / radix = carry radix digit ∧ digit % radix = digit - radix * carry radix digit := by
  rw [Int.ediv_emod_unique (by omega)]
  rcases carry_eq radix digit with ⟨hreached, hcarry⟩ | ⟨hbelow, hcarry⟩
  · rw [hcarry]
    omega
  · rw [hcarry]
    omega

/-- No further below zero than the radix, the borrow is the quotient with its
    sign turned, and what it leaves is the remainder. -/
theorem borrow_spec (radix digit : Int) (hle : -radix ≤ digit) (hlt : digit < radix) :
    digit / radix = -borrow digit ∧ digit % radix = digit + radix * borrow digit := by
  rw [Int.ediv_emod_unique (by omega)]
  rcases borrow_eq digit with ⟨hneg, hborrow⟩ | ⟨hnonneg, hborrow⟩
  · rw [hborrow]
    omega
  · rw [hborrow]
    omega

/-- The digits of a timestamp, as components. -/
def toComponents (t : Timestamp) : Components :=
  ⟨t.high, t.low, t.micro, t.pico⟩

end Timestamp

/-! ## All places -/

namespace Components

open Timestamp

instance : Add Components :=
  ⟨fun c d => ⟨c.high + d.high, c.low + d.low, c.micro + d.micro, c.pico + d.pico⟩⟩

instance : Sub Components :=
  ⟨fun c d => ⟨c.high - d.high, c.low - d.low, c.micro - d.micro, c.pico - d.pico⟩⟩

/-- The components after one unit has been carried out of every place that has
    reached its radix, from the lowest place up. -/
def carryOnce (c : Components) : Components :=
  let micro := c.micro + carry 1000000 c.pico
  let low := c.low + carry 1000000 micro
  { high := c.high + carry 65536 low
    low := low - 65536 * carry 65536 low
    micro := micro - 1000000 * carry 1000000 micro
    pico := c.pico - 1000000 * carry 1000000 c.pico }

/-- The components after every place that has fallen below zero has borrowed
    one unit, from the lowest place up. -/
def borrowOnce (c : Components) : Components :=
  let micro := c.micro - borrow c.pico
  let low := c.low - borrow micro
  { high := c.high - borrow low
    low := low + 65536 * borrow low
    micro := micro + 1000000 * borrow micro
    pico := c.pico + 1000000 * borrow c.pico }

/-- Every place is at most the sum of two of its digits. -/
def CarriesOnce (c : Components) : Prop :=
  (0 ≤ c.low ∧ c.low ≤ 2 * 65535) ∧ (0 ≤ c.micro ∧ c.micro ≤ 2 * 999999) ∧
    (0 ≤ c.pico ∧ c.pico ≤ 2 * 999999)

/-- Every place is at most a digit away from zero. -/
def BorrowsOnce (c : Components) : Prop :=
  (-65535 ≤ c.low ∧ c.low ≤ 65535) ∧ (-999999 ≤ c.micro ∧ c.micro ≤ 999999) ∧
    (-999999 ≤ c.pico ∧ c.pico ≤ 999999)

/-- One unit carried out of each place normalises. -/
theorem carryOnce_eq (c : Components) (h : c.CarriesOnce) :
    c.carryOnce = c.normalize.toComponents := by
  rcases h with ⟨hlow, hmicro, hpico⟩
  -- From the lowest place up, the carry below decides what the next one has.
  rcases carry_spec 1000000 c.pico (by omega) (by omega) with ⟨hpicoDiv, hpicoMod⟩
  have hpicoCarry := carry_eq 1000000 c.pico
  rcases carry_spec 1000000 (c.micro + carry 1000000 c.pico) (by omega) (by omega) with
    ⟨hmicroDiv, hmicroMod⟩
  have hmicroCarry := carry_eq 1000000 (c.micro + carry 1000000 c.pico)
  rcases carry_spec 65536 (c.low + carry 1000000 (c.micro + carry 1000000 c.pico))
    (by omega) (by omega) with ⟨hlowDiv, hlowMod⟩
  simp only [carryOnce, normalize, toComponents, hpicoDiv, hpicoMod, hmicroDiv, hmicroMod, hlowDiv,
    hlowMod]

/-- One unit borrowed by each place normalises. -/
theorem borrowOnce_eq (c : Components) (h : c.BorrowsOnce) :
    c.borrowOnce = c.normalize.toComponents := by
  rcases h with ⟨hlow, hmicro, hpico⟩
  rcases borrow_spec 1000000 c.pico (by omega) (by omega) with ⟨hpicoDiv, hpicoMod⟩
  have hpicoBorrow := borrow_eq c.pico
  rcases borrow_spec 1000000 (c.micro - borrow c.pico) (by omega) (by omega) with
    ⟨hmicroDiv, hmicroMod⟩
  have hmicroBorrow := borrow_eq (c.micro - borrow c.pico)
  rcases borrow_spec 65536 (c.low - borrow (c.micro - borrow c.pico)) (by omega) (by omega) with
    ⟨hlowDiv, hlowMod⟩
  -- A borrow is taken off where normalising adds a negative quotient.
  simp only [borrowOnce, normalize, toComponents, hpicoDiv, hpicoMod, ← sub_eq_add_neg, hmicroDiv,
    hmicroMod, hlowDiv, hlowMod]

/-- The timestamp with the components as its digits, if they are in range. -/
def digits? (c : Components) : Except ArgumentError Timestamp :=
  ofData? (.int c.high) (.int c.low) (.int c.micro) (.int c.pico)

end Components

namespace Timestamp

variable (range : HighRange) (a b : Timestamp)

/-- Two digits add up to a place that one carry is enough for. -/
theorem carriesOnce_add : (a.toComponents + b.toComponents).CarriesOnce := by
  have hlow := And.intro a.low_mem b.low_mem
  have hmicro := And.intro a.micro_mem b.micro_mem
  have hpico := And.intro a.pico_mem b.pico_mem
  change (0 ≤ a.low + b.low ∧ a.low + b.low ≤ _) ∧
    (0 ≤ a.micro + b.micro ∧ a.micro + b.micro ≤ _) ∧ (0 ≤ a.pico + b.pico ∧ a.pico + b.pico ≤ _)
  omega

/-- Two digits are no further apart than one borrow is enough for. -/
theorem borrowsOnce_sub : (a.toComponents - b.toComponents).BorrowsOnce := by
  have hlow := And.intro a.low_mem b.low_mem
  have hmicro := And.intro a.micro_mem b.micro_mem
  have hpico := And.intro a.pico_mem b.pico_mem
  change (_ ≤ a.low - b.low ∧ a.low - b.low ≤ _) ∧
    (_ ≤ a.micro - b.micro ∧ a.micro - b.micro ≤ _) ∧ (_ ≤ a.pico - b.pico ∧ a.pico - b.pico ≤ _)
  omega

/-- The digits of a sum are the sums of the digits, carried once. -/
theorem toComponents_add :
    (a + b).toComponents = (a.toComponents + b.toComponents).carryOnce := rfl

/-- The digits of a difference are the differences of the digits, with one
    borrow each. -/
theorem toComponents_sub :
    (a - b).toComponents = (a.toComponents - b.toComponents).borrowOnce := rfl

/-- The digits of a timestamp are accepted as they are. -/
theorem digits?_toComponents (t : Timestamp) : t.toComponents.digits? = .ok t :=
  t.ofData?_digits

/-! ## The check of a result -/

/-- An operation on two timestamps with the given count is exact within the
    range: it returns exactly if the high digit of the count is in the range,
    and what it returns are digits with the count. Everything else is an
    overflow that names the high digit, if it can be named, together with those
    of the operands. -/
structure IsExact (count : Int) (result : Except Fault Timestamp) : Prop where
  returns_iff : (∃ t, result = .ok t) ↔ count / (65536 * 1000000000000) ∈ range
  returned : ∀ t, result = .ok t → AreDigits t.toList ∧ t.picoseconds = count
  overflows : count / (65536 * 1000000000000) ∉ range →
    range.CanName (count / (65536 * 1000000000000)) → hasNumeral a.high = true →
    hasNumeral b.high = true → result
      = .error (.time (.overflow (.resultOutside (count / (65536 * 1000000000000)) a b range)))
  stops : count / (65536 * 1000000000000) ∉ range →
    ¬ (range.CanName (count / (65536 * 1000000000000)) ∧ hasNumeral a.high = true ∧
      hasNumeral b.high = true) → result = .error (.argument .integerTooLong)

/-- The overflow names the high digits of the result and of both operands. -/
theorem isShowable_resultOutside (high : Int) :
    (Cause.resultOutside high a b range).isShowable = true
      ↔ range.CanName high ∧ hasNumeral a.high = true ∧ hasNumeral b.high = true := by
  rw [Cause.isShowable, Bool.and_eq_true, Bool.and_eq_true, Bool.and_eq_true,
    HighRange.CanName]
  tauto

/-- The check of a result is exact for the count of the result. -/
theorem isExact_within (result : Timestamp) :
    IsExact range a b result.picoseconds (within range a b result) := by
  unfold within
  -- The high digit is checked, and it is the floor of the count.
  rw [high_eq result]
  by_cases hmem : result.picoseconds / (65536 * 1000000000000) ∈ range
  · rw [if_pos hmem]
    refine ⟨iff_of_true ⟨result, rfl⟩ hmem, ?_, fun hnot => absurd hmem hnot,
      fun hnot => absurd hmem hnot⟩
    rintro t ⟨⟩
    exact ⟨result.areDigits_toList, rfl⟩
  · rw [if_neg hmem]
    refine ⟨iff_of_false ?_ hmem, ?_, fun _ hname ha hb => ?_, fun _ hnot => ?_⟩
    · rintro ⟨t, ht⟩
      cases ht
    · intro t ht
      cases ht
    · rw [TimeError.worded_of_isShowable
        ((isShowable_resultOutside range a b _).mpr ⟨hname, ha, hb⟩)]
    · rw [TimeError.worded_of_not_isShowable
        fun hshow => hnot ((isShowable_resultOutside range a b _).mp hshow)]

/-- The sum of two timestamps within a range returns exactly if the floor of
    the sum of their counts by the high digit's unit is in the range, and then
    it is digits with that count; otherwise it overflows, unless the overflow
    cannot be put in words. The same holds of the difference. One carry out of
    each place of the sum of the digits leaves what normalising would, and so
    does one borrow for the difference, and what they leave is accepted as the
    digits of a timestamp. -/
theorem addWithin_subWithin_exact :
    IsExact range a b (a.picoseconds + b.picoseconds) (addWithin range a b) ∧
    IsExact range a b (a.picoseconds - b.picoseconds) (subWithin range a b) ∧
    ((a.toComponents + b.toComponents).carryOnce
        = (a.toComponents + b.toComponents).normalize.toComponents ∧
      (a.toComponents + b.toComponents).carryOnce.digits? = .ok (a + b)) ∧
    (a.toComponents - b.toComponents).borrowOnce
        = (a.toComponents - b.toComponents).normalize.toComponents ∧
      (a.toComponents - b.toComponents).borrowOnce.digits? = .ok (a - b) := by
  refine ⟨?_, ?_, ⟨?_, ?_⟩, ?_, ?_⟩
  · rw [← picoseconds_add]
    exact isExact_within range a b (a + b)
  · rw [← picoseconds_sub]
    exact isExact_within range a b (a - b)
  · exact Components.carryOnce_eq _ (carriesOnce_add a b)
  · rw [← toComponents_add]
    exact digits?_toComponents (a + b)
  · exact Components.borrowOnce_eq _ (borrowsOnce_sub a b)
  · rw [← toComponents_sub]
    exact digits?_toComponents (a - b)

/-- The last second whose high digit can be written, and one second more. The
    sum is outside the usual range, and it is no overflow. -/
theorem addWithin_stops :
    let a : Timestamp :=
      ⟨10 ^ numeralLimit - 1, 65535, 0, 0, by decide, by decide, by decide⟩
    let b : Timestamp := ⟨0, 1, 0, 0, by decide, by decide, by decide⟩
    (a.picoseconds + b.picoseconds) / (65536 * 1000000000000) ∉ HighRange.fixnum ∧
      addWithin .fixnum a b = .error (.argument .integerTooLong) ∧
      ∀ e, addWithin .fixnum a b ≠ .error (.time e) := by
  intro a b
  have hcarry (n : Int) : (((n - 1) * 65536 + 65535) * 1000000000000 + 0 * 1000000 + 0
      + ((0 * 65536 + 1) * 1000000000000 + 0 * 1000000 + 0)) / (65536 * 1000000000000) = n := by
    omega
  have hcount : (a.picoseconds + b.picoseconds) / (65536 * 1000000000000) = 10 ^ numeralLimit :=
    hcarry _
  have hmem : (10 ^ numeralLimit : Int) ∉ HighRange.fixnum :=
    HighRange.not_mem_of_long hasNumeral_ten_pow rfl
  have hstops : addWithin .fixnum a b = .error (.argument .integerTooLong) := by
    have hexact := isExact_within .fixnum a b (a + b)
    rw [picoseconds_add] at hexact
    refine hexact.stops (hcount ▸ hmem) fun h => ?_
    rw [hcount] at h
    exact HighRange.not_canName hasNumeral_ten_pow _ h.1
  refine ⟨hcount ▸ hmem, hstops, fun e he => ?_⟩
  rw [hstops] at he
  cases he

-- A carry, and a borrow, that run through all places.
example : ((⟨-1, 65535, 999999, 999999, by decide, by decide, by decide⟩ : Timestamp)
    + ⟨0, 0, 0, 1, by decide, by decide, by decide⟩).toList = [0, 0, 0, 0] := by decide

example : (zero - ⟨0, 0, 0, 1, by decide, by decide, by decide⟩).toList
    = [-1, 65535, 999999, 999999] := by decide

end Timestamp

end PicoTime
