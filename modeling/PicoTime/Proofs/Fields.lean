import PicoTime.Proofs.Decoding

/-!
# The Fields of a Written Time

What a list means as a time, said without forms. A datum that is written has
four fields, high and low seconds, micro- and picoseconds, and a length, and
it is a time exactly if the four are integers. Its count then decides the
rest: the high digit is the floor of the count by the high digit's unit, the
time is in range if that floor is, and it is the only timestamp with the
count.

Forms get to the same by stages. The low seconds have to be an integer for
there to be a form, and the other three are looked at when the form is
decoded; the count is not formed at all, since the carries go from place to
place. `Datum.form?_eq_bind` joins the first stage to the fields, and
`Timestamp.high_eq` the carries to the count.

The fields decide what the result is. Whether it is returned is a question of
what it has to name: nothing if it is a time, the high digit and the range if
it is out of range, and otherwise the fields that are shown.

## Main definitions

* `Fields`: Four data for the places, and a length.
* `Fields.ofItems?`: The fields of the items of a list.
* `Datum.fields?`: The fields of a datum.
* `Fields.Hold`: The fields are the integers of some components.
* `Datum.misfit`: The cause that a datum is no time for.
* `Datum.Answerable`: A datum is a time, or it can be said why it is none.
* `Timestamp.ofWhole`: The timestamp of whole seconds.

## Theorems

* `Datum.form?_eq_bind`: The form of a datum is that of its fields.
* `Timestamp.high_eq`: The high digit is a floor of the count.
* `Datum.decode_of_hold`, `Datum.decode_of_not_hold`: What fields decode to.
* `Datum.decode_int`: What an integer decodes to.
* `Datum.decode_cases`: There is nothing else to decode to.
* `Datum.decode_fields`: What a written datum decodes to, by its fields.
* `Datum.decode_fields_stops`: Fields that are out of range and decode to
  nothing.
-/

namespace PicoTime

/-- Four data for the places of a time, and how many of them count. -/
structure Fields where
  high : Datum
  low : Datum
  micro : Datum
  pico : Datum
  length : Int

namespace Fields

/-- The fields of a list with two items or more: the first four, with zeros
    for those that are not there. -/
def ofItems? (items : List Datum) : Option Fields :=
  if 2 ≤ items.length then
    some {
      high := items[0]?.getD (.int 0)
      low := items[1]?.getD (.int 0)
      micro := items[2]?.getD (.int 0)
      pico := items[3]?.getD (.int 0)
      length := (min items.length 4 : Nat) }
  else none

end Fields

/-- The fields of a datum. An integer has low seconds only. A tail that is not
    nil takes the next place behind one or two items, and none behind three or
    more. -/
def Datum.fields? : Datum → Option Fields
  | .int n => some ⟨.int 0, .int n, .int 0, .int 0, 2⟩
  | .sequence _ items => Fields.ofItems? items
  | .dotted first rest .nil => Fields.ofItems? (first :: rest)
  | .dotted high [] tail => some ⟨high, tail, .int 0, .int 0, 2⟩
  | .dotted high [low] tail => some ⟨high, low, tail, .int 0, 3⟩
  | .dotted high [low, micro] _ => some ⟨high, low, micro, .int 0, 3⟩
  | .dotted first rest _ => Fields.ofItems? (first :: rest)
  | _ => none

namespace Fields

/-- The fields are the integers of some components, all four of them. -/
def Hold (f : Fields) (c : Components) : Prop :=
  f.high = .int c.high ∧ f.low = .int c.low ∧ f.micro = .int c.micro ∧ f.pico = .int c.pico

/-- Fields are the integers of one components at most. -/
theorem Hold.unique (f : Fields) (c c' : Components) (h : f.Hold c) (h' : f.Hold c') :
    c = c' := by
  rcases c with ⟨high, low, micro, pico⟩
  rcases h with ⟨hhigh, hlow, hmicro, hpico⟩
  rcases h' with ⟨hhigh', hlow', hmicro', hpico'⟩
  simp only [hhigh, hlow, hmicro, hpico, Datum.int.injEq] at hhigh' hlow' hmicro' hpico'
  simp only [hhigh', hlow', hmicro', hpico']

/-- The form of fields, which looks at the low seconds only. -/
def form? (f : Fields) : Option Form :=
  f.low.int?.map fun low => .components f.high low f.micro f.pico f.length

theorem form?_ofItems? (items : List Datum) :
    Form.ofItems? items = (ofItems? items).bind form? := by
  match items with
  | [] => rfl
  | [_] => rfl
  | high :: low :: rest =>
      have htwo : 2 ≤ (high :: low :: rest).length := by
        simp only [List.length_cons]
        omega
      rw [ofItems?, if_pos htwo, Option.bind_some, form?]
      cases low <;> rfl

/-- Behind four items or more a tail is passed over. -/
theorem ofDotted?_of_many (first low micro pico : Datum) (more : List Datum) (tail : Datum) :
    Form.ofDotted? first (low :: micro :: pico :: more) tail
      = Form.ofItems? (first :: low :: micro :: pico :: more) := by
  cases tail <;> cases low <;> rfl

theorem form?_ofDotted? (first : Datum) (rest : List Datum) (tail : Datum) :
    Form.ofDotted? first rest tail = (Datum.dotted first rest tail).fields?.bind form? := by
  cases tail with
  -- Nil behind the dot ends an ordinary list.
  | nil => exact form?_ofItems? (first :: rest)
  | _ =>
      match rest with
      | [] => rfl
      | [low] => cases low <;> rfl
      | [low, micro] => cases low <;> rfl
      | low :: micro :: pico :: more =>
          rw [ofDotted?_of_many]
          exact form?_ofItems? (first :: low :: micro :: pico :: more)

end Fields

/-- The form of anything but nil and the doubles is that of its fields. -/
theorem Datum.form?_eq_bind (spec : Datum) (hnil : spec ≠ .nil) (hfloat : ∀ x, spec ≠ .float x) :
    spec.form? = spec.fields?.bind Fields.form? := by
  cases spec with
  | nil => exact absurd rfl hnil
  | float x => exact absurd rfl (hfloat x)
  | sequence bracket items => exact Fields.form?_ofItems? items
  | dotted first rest tail => exact Fields.form?_ofDotted? first rest tail
  | bool _ | int _ | text _ | table _ => rfl

/-- The high digit is the floor of the count by its unit. -/
theorem Timestamp.high_eq (t : Timestamp) :
    t.high = t.picoseconds / (65536 * 1000000000000) := by
  have hl := t.low_mem
  have hm := t.micro_mem
  have hp := t.pico_mem
  unfold picoseconds
  omega

/-- Fields that hold integers decode to the timestamp with their count. -/
theorem Datum.decode_of_hold (range : HighRange) (spec : Datum) (f : Fields) (c : Components)
    (hf : spec.fields? = some f) (hc : f.Hold c) :
    spec.decode range = liftM (Decoded.checked range c.normalize f.length).worded := by
  -- Nil and the doubles have no fields.
  have hnil : spec ≠ .nil := by
    rintro rfl
    simp only [fields?, reduceCtorEq] at hf
  have hfloat : ∀ x, spec ≠ .float x := by
    rintro x rfl
    simp only [fields?, reduceCtorEq] at hf
  rcases f with ⟨high, low, micro, pico, length⟩
  rcases hc with ⟨hhigh, hlow, hmicro, hpico⟩
  dsimp only at hhigh hlow hmicro hpico
  subst hhigh hlow hmicro hpico
  unfold decode
  rw [form?_eq_bind spec hnil hfloat, hf]
  rfl

/-- The timestamp of whole seconds. -/
def Timestamp.ofWhole (seconds : Int) : Timestamp :=
  { zero with high := seconds / 65536, low := seconds % 65536, low_mem := by omega }

/-- Low seconds that are alone are carried as far as they go. -/
theorem Components.normalize_low (seconds : Int) :
    normalize ⟨0, seconds, 0, 0⟩ = .ofWhole seconds := by
  apply Timestamp.ext_of_picoseconds
  rw [picoseconds_normalize]
  simp only [picoseconds, Timestamp.picoseconds, Timestamp.ofWhole, Timestamp.zero]
  omega

/-- An integer decodes to its whole seconds, if their high part is in the
    range. -/
theorem Datum.decode_int (range : HighRange) (seconds : Int) :
    (Datum.int seconds).decode range
      = liftM (Decoded.checked range (.ofWhole seconds) 2).worded := by
  rw [← Components.normalize_low]
  exact decode_of_hold range _ ⟨.int 0, .int seconds, .int 0, .int 0, 2⟩ ⟨0, seconds, 0, 0⟩ rfl
    ⟨rfl, rfl, rfl, rfl⟩

/-- The cause that a datum is no time for, if it is none. With low seconds that
    are an integer it names the other fields, and else the whole datum. -/
def Datum.misfit (spec : Datum) : Cause :=
  match spec.fields? with
  | none => .notATime spec
  | some f => if f.low.int?.isSome then .notIntegers f.high f.micro f.pico else .notATime spec

/-- Where the fields are missing, or one of them is no integer, there is a
    mismatch. -/
theorem Datum.decode_of_not_hold (range : HighRange) (spec : Datum) (hnil : spec ≠ .nil)
    (hfloat : ∀ x, spec ≠ .float x) (h : ¬ ∃ f c, spec.fields? = some f ∧ f.Hold c) :
    spec.decode range = liftM (Decoded.mismatch spec.misfit).worded := by
  unfold decode misfit
  rw [form?_eq_bind spec hnil hfloat]
  rcases hf : spec.fields? with _ | ⟨high, low, micro, pico, length⟩
  · rfl
  rcases hlow : low.int? with _ | l
  · -- The low seconds are looked at first.
    simp only [Option.bind_some, Fields.form?, hlow, Option.map_none, Option.isSome_none,
      Bool.false_eq_true, if_false]
  simp only [Option.bind_some, Fields.form?, hlow, Option.map_some, Form.decode, Decoded.ofPlaces,
    Option.isSome_some, if_true]
  rcases hhigh : high.int? with _ | hi
  · rfl
  rcases hmicro : micro.int? with _ | mi
  · rfl
  rcases hpico : pico.int? with _ | pi
  · rfl
  · exact absurd ⟨_, ⟨hi, l, mi, pi⟩, hf, int?_eq_some.mp hhigh, int?_eq_some.mp hlow,
      int?_eq_some.mp hmicro, int?_eq_some.mp hpico⟩ h

/-- Anything but nil and the doubles decodes to the timestamp of its fields,
    or to a mismatch. -/
theorem Datum.decode_cases (range : HighRange) (spec : Datum) (hnil : spec ≠ .nil)
    (hfloat : ∀ x, spec ≠ .float x) :
    (∃ f c, spec.fields? = some f ∧ f.Hold c ∧
        spec.decode range = liftM (Decoded.checked range c.normalize f.length).worded) ∨
      (¬ ∃ f c, spec.fields? = some f ∧ f.Hold c) ∧
        spec.decode range = liftM (Decoded.mismatch spec.misfit).worded := by
  by_cases h : ∃ f c, spec.fields? = some f ∧ f.Hold c
  · rcases h with ⟨f, c, hf, hc⟩
    exact Or.inl ⟨f, c, hf, hc, decode_of_hold range spec f c hf hc⟩
  · exact Or.inr ⟨h, decode_of_not_hold range spec hnil hfloat h⟩

/-- The datum is a time in the range, or it can be said why it is not: its high
    digit can be named, or what does not fit can. -/
structure Datum.Answerable (range : HighRange) (spec : Datum) : Prop where
  high : ∀ f c, spec.fields? = some f → f.Hold c →
    c.normalize.high ∈ range ∨ range.CanName c.normalize.high
  misfit : (¬ ∃ f c, spec.fields? = some f ∧ f.Hold c) → spec.misfit.isShowable = true

theorem Datum.answerable_iff_of_hold (range : HighRange) (spec : Datum) (f : Fields)
    (c : Components) (hf : spec.fields? = some f) (hc : f.Hold c) :
    spec.Answerable range ↔ c.normalize.high ∈ range ∨ range.CanName c.normalize.high := by
  refine ⟨fun h => h.high f c hf hc, fun h => ⟨fun f' c' hf' hc' => ?_, fun hnone => ?_⟩⟩
  · rw [hf, Option.some.injEq] at hf'
    subst hf'
    rwa [hc'.unique f c' c hc]
  · exact absurd ⟨f, c, hf, hc⟩ hnone

theorem Datum.answerable_iff_of_not_hold (range : HighRange) (spec : Datum)
    (hnone : ¬ ∃ f c, spec.fields? = some f ∧ f.Hold c) :
    spec.Answerable range ↔ spec.misfit.isShowable = true :=
  ⟨fun h => h.misfit hnone,
    fun h => ⟨fun f c hf hc => absurd ⟨f, c, hf, hc⟩ hnone, fun _ => h⟩⟩

/-- What anything but nil and the doubles decodes to, at every clock and
    without a sample. It is a mismatch, without a timestamp and of length
    zero, exactly if it has no fields or they do not hold integers. Otherwise
    it has the length of its fields, and is out of range, without a timestamp,
    exactly if the floor of the count by the high digit's unit is not in the
    range; if it is, the result is the one timestamp with the count.

    The result is returned if it can be put in words, and otherwise decoding
    stops. A mismatch has to name what does not fit. What is out of range has to
    name that floor and the range. -/
theorem Datum.decode_fields (range : HighRange) (spec : Datum) (hnil : spec ≠ .nil)
    (hfloat : ∀ x, spec ≠ .float x) (clock : Clock) :
    ∃ d : Decoded, outcome (spec.decode range) clock = (d.worded, clock) ∧
      (d.kind? = some .typeMismatch ↔ ¬ ∃ f c, spec.fields? = some f ∧ f.Hold c) ∧
      (d.kind? = some .typeMismatch → d.time? = none ∧ d.length = 0 ∧
        (d.isShowable = true ↔ spec.misfit.isShowable = true)) ∧
      ∀ f c, spec.fields? = some f → f.Hold c →
        d.length = f.length ∧
        (d.kind? = some .outOfRange ↔ c.picoseconds / (65536 * 1000000000000) ∉ range) ∧
        (d.kind? = some .outOfRange → d.time? = none ∧
          (d.isShowable = true ↔ range.CanName (c.picoseconds / (65536 * 1000000000000)))) ∧
        (d.kind? = none ↔ c.picoseconds / (65536 * 1000000000000) ∈ range) ∧
        (d.kind? = none → d.isShowable = true ∧ ∃ t, d.time? = some t ∧
          ∀ s : Timestamp, s.picoseconds = c.picoseconds ↔ s = t) := by
  rcases decode_cases range spec hnil hfloat with ⟨f, c, hf, hc, hdecode⟩ | ⟨hnone, hdecode⟩
  · have hhigh : c.normalize.high = c.picoseconds / (65536 * 1000000000000) := by
      rw [Timestamp.high_eq, c.picoseconds_normalize]
    have hkind : (Decoded.checked range c.normalize f.length).kind? ≠ some .typeMismatch := by
      rw [Decoded.kind?_checked]
      split_ifs <;> simp only [ne_eq, Option.some.injEq, reduceCtorEq, not_false_eq_true]
    refine ⟨.checked range c.normalize f.length, by rw [hdecode]; rfl, ?_, ?_, ?_⟩
    · exact ⟨fun hc' => absurd hc' hkind, fun hno => absurd ⟨f, c, hf, hc⟩ hno⟩
    · exact fun hc' => absurd hc' hkind
    · intro f' c' hf' hc'
      rw [hf, Option.some.injEq] at hf'
      subst hf'
      rw [hc'.unique f c' c hc, Decoded.length_checked, Decoded.kind?_checked,
        Decoded.time?_checked, Decoded.isShowable_checked, hhigh]
      -- The count has no timestamp but the one that carrying leads to.
      have honly (s : Timestamp) : s.picoseconds = c.picoseconds ↔ s = c.normalize := by
        rw [← c.picoseconds_normalize]
        exact ⟨Timestamp.ext_of_picoseconds, fun hs => by rw [hs]⟩
      by_cases hmem : c.picoseconds / (65536 * 1000000000000) ∈ range
      · rw [if_pos hmem, if_pos hmem]
        exact ⟨rfl, iff_of_false nofun (not_not_intro hmem), nofun, iff_of_true rfl hmem,
          fun _ => ⟨Or.inl hmem, c.normalize, rfl, honly⟩⟩
      · rw [if_neg hmem, if_neg hmem]
        exact ⟨rfl, iff_of_true rfl hmem, fun _ => ⟨rfl, or_iff_right hmem⟩,
          iff_of_false nofun hmem, nofun⟩
  · refine ⟨.mismatch spec.misfit, by rw [hdecode]; rfl, ?_, ?_, ?_⟩
    · exact ⟨fun _ => hnone, fun _ => rfl⟩
    · exact fun _ => ⟨rfl, rfl, Iff.rfl⟩
    · exact fun f c hf hc => absurd ⟨f, c, hf, hc⟩ hnone

/-- A tail behind three items fills no place, and the carries of the others
    stay within a range that ends there. -/
theorem Datum.decode_fields_at_end :
    ∃ d, Returns ((Datum.dotted (.int 7) [.int 65534, .int 1999999] (.table [])).decode
        ⟨-8, 7, by decide, by decide⟩) { tick := fun _ => ⟨0, 0⟩ } d { tick := fun _ => ⟨0, 0⟩ } ∧
      d.kind? = none ∧ d.length = 3 ∧
      ∃ t, d.time? = some t ∧
        ∀ s : Timestamp, s.picoseconds = 524287999999000000 ↔ s = t := by
  rcases decode_fields ⟨-8, 7, by decide, by decide⟩
    (.dotted (.int 7) [.int 65534, .int 1999999] (.table [])) (by simp) (by simp)
    { tick := fun _ => ⟨0, 0⟩ } with ⟨d, hd, -, -, hfields⟩
  rcases hfields _ ⟨7, 65534, 1999999, 0⟩ rfl ⟨rfl, rfl, rfl, rfl⟩ with
    ⟨hlength, -, -, hin, htime⟩
  have hkind : d.kind? = none := hin.mpr (by decide)
  rcases htime hkind with ⟨hshow, htime⟩
  rw [Decoded.worded_of_isShowable hshow] at hd
  exact ⟨d, hd, hkind, hlength, htime⟩

/-- A carry leads from the last high digit that can be written to the first
    that cannot. -/
theorem Components.hasNumeral_high_carried :
    hasNumeral (normalize ⟨10 ^ numeralLimit - 1, 65536, 0, 0⟩).high = false := by
  have hcarry (n : Int) : (normalize ⟨n - 1, 65536, 0, 0⟩).high = n := by
    simp only [normalize]
    omega
  rw [hcarry]
  exact hasNumeral_ten_pow

/-- Two places with that carry are a time far out of the usual range, and
    decoding them stops. -/
theorem Datum.decode_fields_stops :
    let c : Components := ⟨10 ^ numeralLimit - 1, 65536, 0, 0⟩
    let spec := ofInts [10 ^ numeralLimit - 1, 65536]
    (∃ f, spec.fields? = some f ∧ f.Hold c) ∧
      c.picoseconds / (65536 * 1000000000000) ∉ HighRange.fixnum ∧
      ∀ clock, outcome (spec.decode .fixnum) clock
        = (.error (.argument .integerTooLong), clock) := by
  intro c spec
  have hlong : hasNumeral c.normalize.high = false := Components.hasNumeral_high_carried
  have hhold : Fields.Hold ⟨.int c.high, .int c.low, .int 0, .int 0, 2⟩ c := ⟨rfl, rfl, rfl, rfl⟩
  refine ⟨⟨_, rfl, hhold⟩, ?_, fun clock => ?_⟩
  · rw [← c.picoseconds_normalize, ← Timestamp.high_eq]
    exact HighRange.not_mem_of_long hlong rfl
  · rw [decode_of_hold .fixnum spec _ c rfl hhold, Decoded.worded_checked_of_long _ hlong rfl]
    rfl

end PicoTime
