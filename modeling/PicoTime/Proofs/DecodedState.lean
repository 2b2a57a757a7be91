import PicoTime.Proofs.Decoding
import PicoTime.Timestamp.Digits

/-!
# The States of a Result

A result of decoding has a kind, a timestamp, a length and a wording, and the
four do not vary on their own. There are three states: a success, whose
timestamp is in the range and whose length is one that times are written
with; a mismatch, with no timestamp and length zero; and a time out of range,
with no timestamp but still with the length it was written with.

Four ways lead to a result: the current time, a double, the places of a list,
and the rejection of everything else. Three of them end at one check of the
high digit, with a length of two, three or four that does not depend on the
check, and that is why no fourth state can arise. Overflow is a kind of
failure, but not of decoding.

The state decides what raising a result does. A success is returned with its
length, a mismatch is raised as an invalid time, and a time out of range as
just that.

## Main definitions

* `Decoded.State`: The states of a result.
* `Decoded.IsIn`: A result is in a state.

## Theorems

* `Decoded.IsIn.unique`: A result is in one state at most.
* `Decoded.exists_isIn_checked`: A checked time is in a state.
* `Datum.exists_isIn_of_decode`: What decoding returns is in a state.
* `Decoded.toExcept_of_kind?`: The kind decides what is raised.
* `Datum.existsUnique_isIn_of_decode`: What decoding returns is in exactly one
  state, and resolving ends by it.
-/

namespace PicoTime

namespace Timestamp

/-- The digits of a timestamp are in range, all four of them. -/
theorem areDigits_toList (t : Timestamp) : AreDigits t.toList := by
  refine ⟨t.low_mem, ?_, le_refl 2⟩
  simp only [List.mem_cons, List.not_mem_nil, or_false, forall_eq_or_imp, forall_eq]
  exact ⟨t.micro_mem, t.pico_mem⟩

/-- The digits of a timestamp are accepted as they are, given as data too. -/
theorem ofData?_digits (t : Timestamp) :
    ofData? (.int t.high) (.int t.low) (.int t.micro) (.int t.pico) = .ok t :=
  ofDigits?_digits t

end Timestamp

namespace Decoded

/-- The states of a result. -/
inductive State where
  | success
  | mismatch
  | outOfRange

/-- The kind of failure that a state is for. -/
def State.kind? : State → Option FailureKind
  | .success => none
  | .mismatch => some .typeMismatch
  | .outOfRange => some .outOfRange

/-- A result is in a state. The digits of a success are in range, and are
    accepted where a timestamp is built from given digits. -/
def IsIn (range : HighRange) (d : Decoded) (s : State) : Prop :=
  d.kind? = s.kind? ∧
    match s with
    | .success =>
      IsLength d.length ∧ d.detail = "" ∧
        ∃ t, d.time? = some t ∧ t.high ∈ range ∧ AreDigits t.toList ∧
          Timestamp.ofData? (.int t.high) (.int t.low) (.int t.micro) (.int t.pico) = .ok t
    | .mismatch => d.time? = none ∧ d.length = 0
    | .outOfRange => d.time? = none ∧ IsLength d.length

theorem State.kind?_injective (s s' : State) (h : s.kind? = s'.kind?) : s = s' := by
  cases s <;> cases s' <;> simp only [kind?, Option.some.injEq, reduceCtorEq] at h ⊢

theorem State.kind?_ne_overflow (s : State) : s.kind? ≠ some .overflow := by
  cases s <;> simp only [kind?, ne_eq, Option.some.injEq, reduceCtorEq, not_false_eq_true]

/-- A result is in one state at most, since every state has its own kind. -/
theorem IsIn.unique (range : HighRange) (d : Decoded) (s s' : State) (h : d.IsIn range s)
    (h' : d.IsIn range s') : s = s' :=
  State.kind?_injective s s' (h.1.symm.trans h'.1)

/-- Length zero is for mismatches only. -/
theorem IsIn.length_eq_zero_iff (range : HighRange) (d : Decoded) (s : State)
    (h : d.IsIn range s) : d.length = 0 ↔ d.kind? = some .typeMismatch := by
  have hlength (hn : IsLength d.length) : d.length ≠ 0 := by
    unfold IsLength at hn
    omega
  cases s with
  | success =>
      rcases h with ⟨hkind, hn, -⟩
      simp only [hlength hn, hkind, State.kind?, reduceCtorEq]
  | mismatch =>
      rcases h with ⟨hkind, -, hzero⟩
      simp only [hzero, hkind, State.kind?]
  | outOfRange =>
      rcases h with ⟨hkind, -, hn⟩
      simp only [hlength hn, hkind, State.kind?, Option.some.injEq, reduceCtorEq]

/-- A time whose high digit is checked is a success or out of range. -/
theorem exists_isIn_checked (range : HighRange) (t : Timestamp) (n : Int) (hn : IsLength n) :
    ∃ s, (checked range t n).IsIn range s := by
  unfold checked
  split_ifs with hmem
  · exact ⟨.success, rfl, hn, rfl, t, rfl, hmem, t.areDigits_toList, t.ofData?_digits⟩
  · exact ⟨.outOfRange, rfl, rfl, hn⟩

theorem exists_isIn_mismatch (range : HighRange) (cause : Cause) :
    ∃ s, (mismatch cause).IsIn range s :=
  ⟨.mismatch, rfl, rfl, rfl⟩

theorem exists_isIn_ofPlaces (range : HighRange) (high : Datum) (low : Int) (micro pico : Datum)
    (n : Int) (hn : IsLength n) : ∃ s, (ofPlaces range high low micro pico n).IsIn range s := by
  unfold ofPlaces
  split
  · exact exists_isIn_checked range _ n hn
  · exact exists_isIn_mismatch range _

theorem exists_isIn_of_ofFloat (range : HighRange) (x : Binary64) (d : Decoded)
    (h : ofFloat range x = .ok d) : ∃ s, d.IsIn range s := by
  rcases exists_of_ofFloat_eq_ok range x d h with ⟨t, rfl⟩ | ⟨cause, rfl⟩
  · exact exists_isIn_checked range t 4 (Or.inr (Or.inr rfl))
  · -- A double outside the window has the length of one inside.
    exact ⟨.outOfRange, rfl, rfl, Or.inr (Or.inr rfl)⟩

/-- The kind decides what raising a result does. -/
theorem toExcept_of_kind? (d : Decoded) :
    (∀ t, d.time? = some t → d.toExcept = .ok (t, d.length)) ∧
      ∀ kind, d.kind? = some kind →
        ∃ cause, cause.describe = d.detail ∧ d.toExcept = .error (kind.error cause) := by
  cases d with
  | success t n =>
      simp only [time?, kind?, toExcept, length, Option.some.injEq, reduceCtorEq,
        false_implies, implies_true, and_true]
      exact fun s hs => by rw [hs]
  | failure kind cause n =>
      simp only [time?, kind?, reduceCtorEq, false_implies, implies_true, true_and,
        Option.some.injEq, forall_eq']
      exact ⟨cause, rfl, rfl⟩

end Decoded

/-- What the decoding of a form returns is in a state. -/
theorem Form.exists_isIn_of_decode (range : HighRange) (form : Form) (hcov : form.Covers)
    (before after : Clock) (d : Decoded) (h : Returns (form.decode range) before d after) :
    ∃ s, d.IsIn range s := by
  cases form with
  | now =>
      rcases (returns_bind _ _ _ _ _).mp h with ⟨s, between, -, hworded⟩
      rw [← ((Decoded.returns_worded _ _ _ _).mp hworded).1.2]
      exact Decoded.exists_isIn_checked range _ 4 (Or.inr (Or.inr rfl))
  | float x => exact Decoded.exists_isIn_of_ofFloat range x d ((returns_liftM _ _ _ _).mp h).1
  | components high low micro pico n =>
      rw [← ((Decoded.returns_worded _ _ _ _).mp h).1.2]
      exact Decoded.exists_isIn_ofPlaces range high low micro pico n hcov.1

/-- What decoding returns is in a state. -/
theorem Datum.exists_isIn_of_decode (range : HighRange) (spec : Datum) (before after : Clock)
    (d : Decoded) (h : Returns (spec.decode range) before d after) : ∃ s, d.IsIn range s := by
  unfold decode at h
  split at h
  · next form hform =>
    exact form.exists_isIn_of_decode range (covers_of_form? spec form hform) before after d h
  · rw [← ((Decoded.returns_worded _ _ _ _).mp h).1.2]
    exact Decoded.exists_isIn_mismatch range _

/-- What decoding returns is in exactly one state: a success with a time in
    the range and a length of two to four, a mismatch of length zero, or a
    time out of range with a length of two to four. Length zero means a
    mismatch, a timestamp is there exactly if there is no failure, and
    overflow is none of the failures. Raising the result, and resolving the
    datum, return a success with its length, and end with an invalid time for
    a mismatch and with a time out of range for the last. -/
theorem Datum.existsUnique_isIn_of_decode (range : HighRange) (spec : Datum)
    (before after : Clock) (d : Decoded) (h : Returns (spec.decode range) before d after) :
    (∃! s, d.IsIn range s) ∧ (d.length = 0 ↔ d.kind? = some .typeMismatch) ∧
    (d.kind? = none ↔ ∃ t, d.time? = some t) ∧ d.kind? ≠ some .overflow ∧
    (d.IsIn range .success → ∃ t, d.time? = some t ∧ d.toExcept = .ok (t, d.length) ∧
      outcome (spec.resolve range) before = (.ok (t, d.length), after)) ∧
    (d.IsIn range .mismatch → ∃ cause, cause.describe = d.detail ∧
      d.toExcept = .error (.invalid cause) ∧
      outcome (spec.resolve range) before = (.error (.time (.invalid cause)), after)) ∧
    (d.IsIn range .outOfRange → ∃ cause, cause.describe = d.detail ∧
      d.toExcept = .error (.outOfRange cause) ∧
      outcome (spec.resolve range) before = (.error (.time (.outOfRange cause)), after)) := by
  rcases exists_isIn_of_decode range spec before after d h with ⟨s, hs⟩
  rcases d.toExcept_of_kind? with ⟨hsuccess, hfailure⟩
  have hresolve : outcome (spec.resolve range) before = (orFault d.toExcept, after) :=
    outcome_resolve h
  refine ⟨⟨s, hs, fun s' hs' => hs'.unique range d s' s hs⟩, hs.length_eq_zero_iff range d s,
    ?_, ?_, ?_, ?_, ?_⟩
  · cases d <;> simp only [Decoded.kind?, Decoded.time?, reduceCtorEq, Option.some.injEq,
      exists_eq', exists_false]
  · rw [hs.1]
    exact s.kind?_ne_overflow
  · rintro ⟨-, -, -, t, ht, -⟩
    have hexcept := hsuccess t ht
    rw [hexcept] at hresolve
    exact ⟨t, ht, hexcept, hresolve⟩
  · rintro ⟨hkind, -⟩
    rcases hfailure _ hkind with ⟨cause, hwords, hexcept⟩
    rw [hexcept] at hresolve
    exact ⟨cause, hwords, hexcept, hresolve⟩
  · rintro ⟨hkind, -⟩
    rcases hfailure _ hkind with ⟨cause, hwords, hexcept⟩
    rw [hexcept] at hresolve
    exact ⟨cause, hwords, hexcept, hresolve⟩

/-- A clock that is a nanosecond short of the epoch, and shows it by a
    negative count, is a success. A truth value for the high seconds is a
    mismatch, and a carry over the end of a narrow range is out of range. -/
theorem Datum.existsUnique_isIn_of_decode_before_epoch :
    (Returns (Datum.nil.decode .fixnum) { tick := fun _ => ⟨0, -1⟩ }
        (.success ⟨-1, 65535, 999999, 999000, by decide, by decide, by decide⟩ 4)
        { tick := fun _ => ⟨0, -1⟩, taken := 1 } ∧
      ∃! s, (Decoded.success ⟨-1, 65535, 999999, 999000, by decide, by decide, by decide⟩
        4).IsIn .fixnum s) ∧
    (∃ cause, cause.describe = "non-integer time components: high=True usec=0 psec=0" ∧
      outcome ((Datum.dotted (.bool true) [] (.int 1)).resolve .fixnum)
        { tick := fun _ => ⟨0, 0⟩ }
        = (.error (.time (.invalid cause)), { tick := fun _ => ⟨0, 0⟩ })) ∧
    (∃ cause, cause.describe = "high seconds 1 outside [-1, 0]" ∧
      outcome ((Datum.ofInts [0, 65535, 999999, 1000000]).resolve ⟨-1, 0, by decide, by decide⟩)
        { tick := fun _ => ⟨0, 0⟩ }
        = (.error (.time (.outOfRange cause)), { tick := fun _ => ⟨0, 0⟩ })) := by
  refine ⟨⟨rfl, ?_⟩, ?_, ?_⟩
  · exact (existsUnique_isIn_of_decode .fixnum .nil { tick := fun _ => ⟨0, -1⟩ }
      { tick := fun _ => ⟨0, -1⟩, taken := 1 } _ rfl).1
  · rcases (existsUnique_isIn_of_decode .fixnum (.dotted (.bool true) [] (.int 1))
      { tick := fun _ => ⟨0, 0⟩ } _ _ rfl).2.2.2.2.2.1 ⟨rfl, rfl, rfl⟩ with
      ⟨cause, hwords, -, hresolve⟩
    exact ⟨cause, hwords.trans (by decide), hresolve⟩
  · have hout : Returns
        ((ofInts [0, 65535, 999999, 1000000]).decode ⟨-1, 0, by decide, by decide⟩)
        { tick := fun _ => ⟨0, 0⟩ }
        (.failure .outOfRange (.highOutside 1 ⟨-1, 0, by decide, by decide⟩) 4)
        { tick := fun _ => ⟨0, 0⟩ } := rfl
    rcases (existsUnique_isIn_of_decode _ _ _ _ _ hout).2.2.2.2.2.2
      ⟨rfl, rfl, Or.inr (Or.inr rfl)⟩ with ⟨cause, hwords, -, hresolve⟩
    exact ⟨cause, hwords.trans (by decide), hresolve⟩

end PicoTime
