import PicoTime.Datum.Seconds
import PicoTime.Datum.Sum
import PicoTime.Proofs.Resolution
import PicoTime.Proofs.Timed
import PicoTime.Proofs.Wording

/-!
# Decoding and Encoding

Every shape that can be decoded comes with a length, and the places beyond
that length are zero: a dotted tail fills the last place that counts, further
items of a list come only after all four places are full, and a double or the
current time counts as four places. So a decoded time is a multiple of the
unit of its length, and writing it with that many places loses nothing.

That is what makes decoding and encoding inverse. What is written of any
timestamp decodes to what truncating leaves of it; what is decoded from any
datum is still there after it was written; and digits that are in range
already are written as they stand. Only a high digit outside the range has to
be named, and if that takes too many digits nothing is returned.

## Main definitions

* `Form.Covers`: A form's length covers the places that it fills.

## Theorems

* `Datum.covers_of_form?`: The shape of a datum covers its places.
* `Decoded.checked_eq_success_iff`: When the high digit passes its check.
* `Decoded.ofFloat_of_window`: What a double decodes to.
* `Decoded.returns_worded`: What is returned of a result.
* `Datum.exact_of_decode`: A decoded time is a multiple of its unit.
* `Datum.decode_ofInts_of_encode`: What is written decodes to what was kept.
* `Datum.outcome_resolve`, `Datum.returns_resolve`: Resolving ends with what
  decoding finds.
* `Timestamp.ofSeconds_eq_ok_iff`: What a number of seconds becomes.
* `Datum.decode_encode_inverse`: Decoding and encoding are inverse.
* `Datum.decode_encode_stops`: An encoding that is not decoded to a result.
-/

namespace PicoTime

/-- The length of a form covers the places that the form fills: those beyond
    hold zero. -/
def Form.Covers : Form → Prop
  | .components _ _ micro pico length =>
    IsLength length ∧ (length = 2 → micro = .int 0) ∧ (length ≠ 4 → pico = .int 0)
  | _ => True

namespace Form

theorem covers_of_ofItems? (items : List Datum) (form : Form)
    (h : ofItems? items = some form) : form.Covers := by
  unfold ofItems? at h
  split at h
  · next high low rest =>
    simp only [Option.some.injEq] at h
    rw [← h]
    -- How many items follow the low seconds decides which places are zero.
    match rest with
    | [] => exact ⟨Or.inl rfl, fun _ => rfl, fun _ => rfl⟩
    | [_] =>
        simp only [Covers, List.length_cons, List.length_nil]
        exact ⟨Or.inr (Or.inl rfl), fun hlen => absurd hlen (by decide), fun _ => rfl⟩
    | _ :: _ :: more =>
        have hlen : min ((more.length + 1 + 1) + 2) 4 = 4 := by omega
        simp only [Covers, List.length_cons, hlen]
        exact ⟨Or.inr (Or.inr rfl), fun hne => absurd hne (by decide), fun hne => absurd rfl hne⟩
  · simp only [reduceCtorEq] at h

theorem covers_of_ofDotted? (first : Datum) (rest : List Datum) (tail : Datum) (form : Form)
    (h : ofDotted? first rest tail = some form) : form.Covers := by
  unfold ofDotted? at h
  split at h
  · -- Nil behind the dot ends an ordinary list.
    exact covers_of_ofItems? _ form h
  · simp only [Option.some.injEq] at h
    rw [← h]
    exact ⟨Or.inl rfl, fun _ => rfl, fun _ => rfl⟩
  · simp only [Option.some.injEq] at h
    rw [← h]
    exact ⟨Or.inr (Or.inl rfl), fun hlen => absurd hlen (by decide), fun _ => rfl⟩
  · simp only [Option.some.injEq] at h
    rw [← h]
    exact ⟨Or.inr (Or.inl rfl), fun hlen => absurd hlen (by decide), fun _ => rfl⟩
  · -- The items fill all places without the tail.
    exact covers_of_ofItems? _ form h
  · simp only [reduceCtorEq] at h

end Form

/-- The shape of a datum covers the places that it fills. -/
theorem Datum.covers_of_form? (spec : Datum) (form : Form) (h : spec.form? = some form) :
    form.Covers := by
  cases spec with
  | nil =>
      simp only [form?, Option.some.injEq] at h
      rw [← h]
      trivial
  | int n =>
      simp only [form?, Option.some.injEq] at h
      rw [← h]
      exact ⟨Or.inl rfl, fun _ => rfl, fun _ => rfl⟩
  | float x =>
      simp only [form?, Option.some.injEq] at h
      rw [← h]
      trivial
  | sequence _ items => exact Form.covers_of_ofItems? items form h
  | dotted first rest tail => exact Form.covers_of_ofDotted? first rest tail form h
  | bool _ => simp only [form?, reduceCtorEq] at h
  | text _ => simp only [form?, reduceCtorEq] at h
  | table _ => simp only [form?, reduceCtorEq] at h

namespace Decoded

theorem checked_eq_success_iff (range : HighRange) (s t : Timestamp) (m n : Int) :
    checked range s m = .success t n ↔ s.high ∈ range ∧ s = t ∧ m = n := by
  unfold checked
  split_ifs with h
  · simp only [success.injEq, h, true_and]
  · simp only [h, false_and]

theorem length_checked (range : HighRange) (t : Timestamp) (n : Int) :
    (checked range t n).length = n := by
  unfold checked
  split_ifs <;> rfl

theorem kind?_checked (range : HighRange) (t : Timestamp) (n : Int) :
    (checked range t n).kind? = if t.high ∈ range then none else some .outOfRange := by
  unfold checked
  split_ifs <;> rfl

theorem time?_checked (range : HighRange) (t : Timestamp) (n : Int) :
    (checked range t n).time? = if t.high ∈ range then some t else none := by
  unfold checked
  split_ifs <;> rfl

/-- Nothing is returned of a failure, which is raised. -/
theorem eq_success_of_toExcept {d : Decoded} {t : Timestamp} {n : Int}
    (h : d.toExcept = .ok (t, n)) : d = .success t n := by
  cases d with
  | success s m =>
      simp only [toExcept, Except.ok.injEq, Prod.mk.injEq] at h
      rw [h.1, h.2]
  | failure _ _ _ => simp only [toExcept, reduceCtorEq] at h

/-- A result is returned as it is, if it can be put in words. -/
theorem returns_worded (d r : Decoded) (before after : Clock) :
    Returns (liftM d.worded) before r after ↔ (d.isShowable = true ∧ d = r) ∧ before = after := by
  rw [returns_liftM, worded_eq_ok_iff]

/-- A success is always returned. -/
theorem returns_worded_success (d : Decoded) (t : Timestamp) (n : Int) (before after : Clock) :
    Returns (liftM d.worded) before (.success t n) after
      ↔ d = .success t n ∧ before = after := by
  rw [returns_liftM, worded_eq_success_iff]

/-- A range without a window in double precision decodes no double. -/
theorem ofFloat_of_no_window (range : HighRange) (x : Binary64) (e : ConversionError)
    (hw : range.window = .error e) : ofFloat range x = .error (.conversion e) := by
  unfold ofFloat
  rw [hw]
  rfl

/-- What a double decodes to, by the window of the range. -/
theorem ofFloat_of_window (range : HighRange) (x lower upper : Binary64)
    (hw : range.window = .ok (lower, upper)) :
    ofFloat range x
      = if x.within lower upper then
          match Components.ofFloat? x with
          | some c => (checked range c.normalize 4).worded
          | none => .error (.conversion .infinityNotInteger)
        else .ok (.failure .outOfRange (.floatOutside x lower upper) 4) := by
  unfold ofFloat
  rw [hw]
  rfl

/-- A double that decodes to a result has passed the window and is checked, or
    is outside of it. -/
theorem exists_of_ofFloat_eq_ok (range : HighRange) (x : Binary64) (d : Decoded)
    (h : ofFloat range x = .ok d) :
    (∃ t, d = checked range t 4) ∨ ∃ cause, d = .failure .outOfRange cause 4 := by
  rcases hw : range.window with e | ⟨lower, upper⟩
  · rw [ofFloat_of_no_window range x e hw] at h
    cases h
  · rw [ofFloat_of_window range x lower upper hw] at h
    split_ifs at h with hin
    · rcases hc : Components.ofFloat? x with _ | c
      · simp only [hc, reduceCtorEq] at h
      · simp only [hc, worded_eq_ok_iff] at h
        exact Or.inl ⟨c.normalize, h.2.symm⟩
    · rw [Except.ok.injEq] at h
      exact Or.inr ⟨_, h.symm⟩

/-- Seconds in double precision decode to a timestamp in the range, with all
    four places. -/
theorem of_ofFloat_eq_success (range : HighRange) (x : Binary64) (t : Timestamp) (n : Int)
    (h : ofFloat range x = .ok (.success t n)) : t.high ∈ range ∧ n = 4 := by
  rcases exists_of_ofFloat_eq_ok range x _ h with ⟨s, hd⟩ | ⟨cause, hd⟩
  · -- The window is only the first check. The high digit has its own.
    rcases (checked_eq_success_iff range s t 4 n).mp hd.symm with ⟨hmem, rfl, rfl⟩
    exact ⟨hmem, rfl⟩
  · simp only [reduceCtorEq] at hd

/-- Places decode to the timestamp with their count, if they are integers. -/
theorem exists_of_ofPlaces_eq_success (range : HighRange) (high : Datum) (low : Int)
    (micro pico : Datum) (length n : Int) (t : Timestamp)
    (h : ofPlaces range high low micro pico length = .success t n) :
    ∃ hi mi pi, high = .int hi ∧ micro = .int mi ∧ pico = .int pi ∧ n = length ∧
      t.high ∈ range ∧ t.picoseconds = Components.picoseconds ⟨hi, low, mi, pi⟩ := by
  unfold ofPlaces at h
  split at h
  · next hi mi pi hhigh hmicro hpico =>
    rcases (checked_eq_success_iff range _ t length n).mp h with ⟨hmem, rfl, rfl⟩
    exact ⟨hi, mi, pi, Datum.int?_eq_some.mp hhigh, Datum.int?_eq_some.mp hmicro,
      Datum.int?_eq_some.mp hpico, rfl, hmem, Components.picoseconds_normalize _⟩
  · simp only [mismatch, reduceCtorEq] at h

end Decoded

open Timestamp

/-- A form that decodes has a time in the range, and a length whose unit
    divides the count. -/
theorem Form.exact_of_decode (range : HighRange) (form : Form) (hcov : form.Covers)
    (before after : Clock) (t : Timestamp) (n : Int)
    (h : Returns (form.decode range) before (.success t n) after) :
    t.high ∈ range ∧ IsLength n ∧ resolution n ∣ t.picoseconds := by
  cases form with
  | now =>
      -- A sample has all four places, and so has a double.
      rcases (returns_bind _ _ _ _ _).mp h with ⟨s, between, _, hworded⟩
      have hchecked := ((Decoded.returns_worded_success _ _ _ _ _).mp hworded).1
      rcases (Decoded.checked_eq_success_iff _ _ _ _ _).mp hchecked with ⟨hmem, rfl, rfl⟩
      exact ⟨hmem, Or.inr (Or.inr rfl), Int.one_dvd _⟩
  | float x =>
      rcases Decoded.of_ofFloat_eq_success range x t n ((returns_liftM _ _ _ _).mp h).1 with
        ⟨hmem, rfl⟩
      exact ⟨hmem, Or.inr (Or.inr rfl), Int.one_dvd _⟩
  | components high low micro pico length =>
      have hplaces := ((Decoded.returns_worded_success _ _ _ _ _).mp h).1
      rcases Decoded.exists_of_ofPlaces_eq_success range high low micro pico length n t hplaces
        with ⟨hi, mi, pi, rfl, rfl, rfl, rfl, hmem, hcount⟩
      rcases hcov with ⟨hlen, hmicro, hpico⟩
      simp only [Datum.int.injEq] at hmicro hpico
      refine ⟨hmem, hlen, ?_⟩
      rw [hcount]
      -- Each length leaves only multiples of its own unit.
      rcases hlen with rfl | rfl | rfl
      · rw [hmicro rfl, hpico (by decide)]
        simp only [Components.picoseconds, resolution, Int.reduceEq, reduceIte]
        omega
      · rw [hpico (by decide)]
        simp only [Components.picoseconds, resolution, Int.reduceEq, reduceIte]
        omega
      · exact Int.one_dvd _

/-- A datum that decodes has a time in the range, and a length whose unit
    divides the count. -/
theorem Datum.exact_of_decode (range : HighRange) (spec : Datum) (before after : Clock)
    (t : Timestamp) (n : Int)
    (h : Returns (spec.decode range) before (.success t n) after) :
    t.high ∈ range ∧ IsLength n ∧ resolution n ∣ t.picoseconds := by
  unfold decode at h
  split at h
  · next form hform =>
    exact form.exact_of_decode range (covers_of_form? spec form hform) before after t n h
  · have hfail := ((Decoded.returns_worded_success _ _ _ _ _).mp h).1
    simp only [Decoded.mismatch, reduceCtorEq] at hfail

/-- What is written of a timestamp decodes to what truncating leaves of it. -/
theorem Datum.decode_ofInts_of_encode (range : HighRange) (t : Timestamp) (n : Int)
    (ns : List Int) (h : t.encode n = .ok ns) :
    (Datum.ofInts ns).decode range
      = liftM (Decoded.checked range (t.truncate n) n).worded := by
  rcases (encode_eq_ok_iff t n ns).mp h with ⟨hn, rfl⟩
  -- The places written are bound to the places they were written from.
  have hplaces : (Datum.ofInts ((t.truncate n).toList.take n.toNat)).form?
      = some (.components (.int (t.truncate n).high) (t.truncate n).low
        (.int (t.truncate n).micro) (.int (t.truncate n).pico) n) := by
    rcases hn with rfl | rfl | rfl <;> rfl
  unfold decode
  rw [hplaces]
  simp only [Form.decode, Decoded.ofPlaces, Datum.int?, normalize_digits]

/-- Resolving ends with the time that decoding finds, with the error of what it
    finds instead, or where decoding stops. -/
theorem Datum.outcome_resolve {range : HighRange} {spec : Datum} {before after : Clock}
    {found : Except Fault Decoded} (h : outcome (spec.decode range) before = (found, after)) :
    outcome (spec.resolve range) before
      = (found >>= fun d => orFault d.toExcept, after) := by
  unfold resolve
  rw [outcome_bind, h]
  cases found <;> rfl

/-- Resolving returns what decoding finds. -/
theorem Datum.returns_resolve (range : HighRange) (spec : Datum) (before after : Clock)
    (t : Timestamp) (n : Int) :
    Returns (spec.resolve range) before (t, n) after
      ↔ Returns (spec.decode range) before (.success t n) after := by
  unfold resolve
  rw [returns_bind]
  constructor
  · rintro ⟨decoded, between, hdecode, hresult⟩
    rcases (returns_orFault _ _ _ _).mp hresult with ⟨hexcept, rfl⟩
    rw [Decoded.eq_success_of_toExcept hexcept] at hdecode
    exact hdecode
  · intro h
    exact ⟨_, after, h, (returns_orFault _ _ _ _).mpr ⟨rfl, rfl⟩⟩

/-- A number becomes the timestamp that its double decodes to. -/
theorem Timestamp.ofSeconds_eq_ok_iff (range : HighRange) (number : Number) (t : Timestamp) :
    ofSeconds range number = .ok t
      ↔ ∃ x n, number.toFloat = .ok x ∧ Decoded.ofFloat range x = .ok (.success t n) := by
  unfold ofSeconds
  simp only [bind_eq_ok_iff, orFault_eq_ok_iff]
  constructor
  · rintro ⟨x, hx, d, hd, ⟨s, n⟩, hs, ht⟩
    rw [Decoded.eq_success_of_toExcept hs] at hd
    cases ht
    exact ⟨x, n, hx, hd⟩
  · rintro ⟨x, n, hx, hd⟩
    exact ⟨x, hx, _, hd, (t, n), rfl, rfl⟩

/-- Truncating leaves the high digit. -/
theorem Timestamp.high_truncate (t : Timestamp) (n : Int) : (t.truncate n).high = t.high := by
  unfold truncate
  split_ifs <;> rfl

/-- Decoding and encoding are inverse. What is written of a timestamp decodes,
    within any range that holds its high digit, to the greatest time of that
    resolution that is not later; within any other it is out of range, if the
    high digit and the range can be named, and decoding stops if they cannot.
    What is decoded from any datum is written without loss. Digits in range are
    written as they stand. -/
theorem Datum.decode_encode_inverse (range : HighRange) :
    (∀ (t : Timestamp) (n : Int), IsLength n →
      ∃ ns, t.encode n = .ok ns ∧
        (t.high ∈ range → (ofInts ns).decode range = pure (.success (t.truncate n) n)) ∧
        (t.high ∉ range → range.CanName t.high → (ofInts ns).decode range
          = pure (.failure .outOfRange (.highOutside t.high range) n)) ∧
        (t.high ∉ range → ¬ range.CanName t.high → (ofInts ns).decode range
          = throw (.argument .integerTooLong)) ∧
        IsGreatest {m : Int | resolution n ∣ m ∧ m ≤ t.picoseconds}
          (t.truncate n).picoseconds) ∧
    (∀ (spec : Datum) (before after : Clock) (t : Timestamp) (n : Int),
      Returns (spec.decode range) before (.success t n) after →
        ∃ ns, t.encode n = .ok ns ∧ (ofInts ns).decode range = pure (.success t n)) ∧
    (∀ ns : List Int, AreDigits ns → (∀ high ∈ ns.head?, high ∈ range) →
      ∃ t, (ofInts ns).decode range = pure (.success t ns.length) ∧
        t.encode ns.length = .ok ns) := by
  refine ⟨fun t n hn => ?_, fun spec before after t n h => ?_, fun ns hns hhigh => ?_⟩
  · have henc := (encode_eq_ok_iff t n _).mpr ⟨hn, rfl⟩
    have hdecode := decode_ofInts_of_encode range t n _ henc
    -- Truncating leaves the high digit, so the range decides as before.
    have hkeep := t.high_truncate n
    refine ⟨_, henc, ?_, ?_, ?_, isGreatest_truncate t n hn⟩
    all_goals rw [hdecode, ← hkeep]
    · intro hmem
      rw [Decoded.worded_checked_of_mem n hmem]
      rfl
    · intro hmem hname
      rw [Decoded.worded_checked_of_canName n hmem hname]
      rfl
    · intro hmem hname
      rw [Decoded.worded_checked_of_not_canName n hmem hname]
      rfl
  · rcases exact_of_decode range spec before after t n h with ⟨hmem, hn, hdvd⟩
    have henc := (encode_eq_ok_iff t n _).mpr ⟨hn, rfl⟩
    refine ⟨_, henc, ?_⟩
    -- The unit divides the count, so truncating takes nothing away.
    rw [decode_ofInts_of_encode range t n _ henc, (truncate_eq_self_iff t n hn).mpr hdvd,
      Decoded.worded_checked_of_mem n hmem]
    rfl
  · rcases exists_encode_of_areDigits ns hns with ⟨t, henc, hkeep⟩
    have hmem : t.high ∈ range := hhigh t.high (areDigits_of_encode t _ ns henc).2.2
    refine ⟨t, ?_, henc⟩
    rw [decode_ofInts_of_encode range t _ ns henc, hkeep, Decoded.worded_checked_of_mem _ hmem]
    rfl

/-- The last picosecond before the epoch in three places, within the usual
    range and within one that ends earlier; carries out of a dotted list whose
    tail fills no place; and the last second before the epoch as it stands. -/
theorem Datum.decode_encode_inverse_before_epoch :
    (∃ ns, (⟨-1, 65535, 999999, 999999, by decide, by decide, by decide⟩ : Timestamp).encode 3
        = .ok ns ∧ (ofInts ns).decode .fixnum
        = pure (.success ⟨-1, 65535, 999999, 0, by decide, by decide, by decide⟩ 3)) ∧
    (∃ ns, (⟨-1, 65535, 999999, 999999, by decide, by decide, by decide⟩ : Timestamp).encode 3
        = .ok ns ∧ (ofInts ns).decode ⟨-9, -2, by decide, by decide⟩
        = pure (.failure .outOfRange
          (.highOutside (-1) ⟨-9, -2, by decide, by decide⟩) 3)) ∧
    (∃ ns, (⟨-1, 65534, 999999, 0, by decide, by decide, by decide⟩ : Timestamp).encode 3
        = .ok ns ∧ (ofInts ns).decode .fixnum
        = pure (.success ⟨-1, 65534, 999999, 0, by decide, by decide, by decide⟩ 3)) ∧
    (∃ t, (ofInts [-1, 65535]).decode .fixnum = pure (.success t 2) ∧
      t.encode 2 = .ok [-1, 65535]) := by
  rcases decode_encode_inverse .fixnum with ⟨hwrite, hread, hdigits⟩
  rcases decode_encode_inverse ⟨-9, -2, by decide, by decide⟩ with ⟨hoverflow, _, _⟩
  refine ⟨?_, ?_, ?_, ?_⟩
  · rcases hwrite ⟨-1, 65535, 999999, 999999, by decide, by decide, by decide⟩ 3
      (Or.inr (Or.inl rfl)) with ⟨ns, henc, hdec, _, _⟩
    exact ⟨ns, henc, hdec (by decide)⟩
  · rcases hoverflow ⟨-1, 65535, 999999, 999999, by decide, by decide, by decide⟩ 3
      (Or.inr (Or.inl rfl)) with ⟨ns, henc, _, hdec, _⟩
    exact ⟨ns, henc, hdec (by decide) ⟨rfl, rfl⟩⟩
  · exact hread (.dotted (.int 0) [.int (-1), .int (-1)] (.float (.nan true)))
      { tick := fun _ => ⟨0, 0⟩ } { tick := fun _ => ⟨0, 0⟩ }
      ⟨-1, 65534, 999999, 0, by decide, by decide, by decide⟩ 3 rfl
  · exact hdigits [-1, 65535] (by simp [AreDigits]) (by simp; decide)

/-- The first high digit that cannot be written, with all four places. What is
    written of it is outside the usual range, and decoding does not say so. -/
theorem Datum.decode_encode_stops :
    let t : Timestamp := { Timestamp.zero with high := 10 ^ numeralLimit }
    t.high ∉ HighRange.fixnum ∧ t.encode 4 = .ok t.toList ∧
      (ofInts t.toList).decode .fixnum = throw (.argument .integerTooLong) := by
  intro t
  have hlong : hasNumeral t.high = false := hasNumeral_ten_pow
  have henc : t.encode 4 = .ok t.toList := rfl
  refine ⟨HighRange.not_mem_of_long hlong rfl, henc, ?_⟩
  rw [decode_ofInts_of_encode .fixnum t 4 _ henc, show t.truncate 4 = t from rfl,
    Decoded.worded_checked_of_long 4 hlong rfl]
  rfl

end PicoTime
