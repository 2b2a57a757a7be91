import PicoTime.Proofs.Fields
import PicoTime.Proofs.ReadBack

/-!
# Decoding What Was Printed

What a printed datum reads as is its canonical form, and the two are decoded
by different rules. In the datum a dotted tail fills one place and must be an
integer for it; in the canonical form a tail that is a list has become further
items. Both give the same time wherever the datum decodes at all, with one
exception. Behind three items a tail of any kind is passed over, and if it is
a list with an item, that item is the fourth of the canonical form. A time
then appears with picoseconds that the datum did not count.

Nothing else comes between the two. With one or two items the tail has to be
an integer, which stays behind the dot, and four items fill all places before
anything that is spliced behind them.

## Main definitions

* `Datum.HidesPico`: The tail of a datum is read back as its fourth item.
* `Fields.canonical`: Fields in canonical form.

## Theorems

* `Datum.exists_dot_eq`: Dot notation keeps the items before the dot.
* `Fields.ofItems?_canonicalItems`: Items keep their fields.
* `Datum.fields?_canonical`: A datum keeps its fields.
* `Datum.fields?_canonical_of_hidesPico`: The exception.
* `Datum.decode_canonical`: A datum and its canonical form decode to the same.
* `Datum.length_ne_of_hidesPico`: The exception has another length.
* `Datum.decode_reread`: What is decoded from the text of a datum.
-/

namespace PicoTime

/-- The datum is dotted behind three items, and its tail holds an item by
    itself. Decoding the datum passes over that item, and the datum's text
    reads as a list with the item in fourth place. -/
def Datum.HidesPico : Datum → Prop
  | .dotted _ [_, _] (.sequence _ (_ :: _)) => True
  | .dotted _ [_, _] (.dotted _ _ _) => True
  | _ => False

/-- Fields in canonical form. -/
def Fields.canonical (f : Fields) : Fields where
  high := f.high.canonical
  low := f.low.canonical
  micro := f.micro.canonical
  pico := f.pico.canonical
  length := f.length

/-- Integers are in canonical form. -/
theorem Fields.Hold.canonical (f : Fields) (c : Components) (h : f.Hold c) :
    f.canonical.Hold c := by
  rcases f with ⟨high, low, micro, pico, length⟩
  rcases h with ⟨hhigh, hlow, hmicro, hpico⟩
  dsimp only at hhigh hlow hmicro hpico
  subst hhigh hlow hmicro hpico
  exact ⟨rfl, rfl, rfl, rfl⟩

namespace Datum

/-- Dot notation keeps the items before the dot, with more items behind them
    and perhaps a dot behind those. -/
theorem exists_dot_eq (first : Datum) (rest : List Datum) (tail : Datum) :
    ∃ more, dot first rest tail = .sequence .round (first :: (rest ++ more))
      ∨ ∃ last, dot first rest tail = .dotted first (rest ++ more) last := by
  cases tail with
  | nil => exact ⟨[], Or.inl (by rw [List.append_nil]; rfl)⟩
  | sequence bracket more => exact ⟨more, Or.inl rfl⟩
  | dotted next more last => exact ⟨next :: more, Or.inr ⟨last, rfl⟩⟩
  | bool _ | int _ | float _ | text _ | table _ =>
      exact ⟨[], Or.inr ⟨_, by rw [List.append_nil]; rfl⟩⟩

end Datum

namespace Fields

/-- Four items fill all places. -/
theorem ofItems?_of_many (high low micro pico : Datum) (more : List Datum) :
    ofItems? (high :: low :: micro :: pico :: more) = some ⟨high, low, micro, pico, 4⟩ := by
  simp [ofItems?]

/-- Items keep their fields in canonical form. -/
theorem ofItems?_canonicalItems (items : List Datum) :
    ofItems? (Datum.canonicalItems items) = (ofItems? items).map canonical := by
  match items with
  | [] | [_] | [_, _] | [_, _, _] => rfl
  | high :: low :: micro :: pico :: more =>
      simp only [Datum.canonicalItems, ofItems?_of_many, Option.map_some, canonical]

end Fields

namespace Datum

/-- Four items before a dot fill all places, whatever is behind it. -/
theorem fields?_dotted_of_many (first low micro pico : Datum) (more : List Datum)
    (tail : Datum) :
    (dotted first (low :: micro :: pico :: more) tail).fields?
      = some ⟨first, low, micro, pico, 4⟩ := by
  rw [← Fields.ofItems?_of_many first low micro pico more]
  cases tail <;> rfl

/-- Four items in dot notation fill all places, whatever is spliced behind
    them. -/
theorem fields?_dot_of_many (first low micro pico : Datum) (more : List Datum) (tail : Datum) :
    (dot first (low :: micro :: pico :: more) tail).fields?
      = some ⟨first, low, micro, pico, 4⟩ := by
  rcases exists_dot_eq first (low :: micro :: pico :: more) tail with ⟨_, h | ⟨_, h⟩⟩
  · rw [h]
    exact Fields.ofItems?_of_many first low micro pico _
  · rw [h]
    exact fields?_dotted_of_many first low micro pico _ _

/-- A datum whose fields are integers keeps them in canonical form, unless its
    tail is read back as the fourth. -/
theorem fields?_canonical (d : Datum) (f : Fields) (c : Components) (hf : d.fields? = some f)
    (hc : f.Hold c) (hvisible : ¬ d.HidesPico) : d.canonical.fields? = some f.canonical := by
  rcases hc with ⟨-, hlow, hmicro, -⟩
  cases d with
  | nil | bool _ | float _ | text _ | table _ => cases hf
  | int n =>
      cases hf
      rfl
  | sequence bracket items =>
      match items with
      | [] => cases hf
      | high :: more =>
          change Fields.ofItems? (canonicalItems (high :: more)) = _
          rw [Fields.ofItems?_canonicalItems]
          exact congrArg (Option.map Fields.canonical) hf
  | dotted first rest tail =>
      match rest with
      | [] =>
          cases tail <;> cases hf <;> cases hlow
          rfl
      | [low] =>
          -- A tail in a place is an integer, and stays behind the dot.
          cases tail with
          | nil => cases hf; rfl
          | _ => cases hf; cases hmicro; try rfl
      | [low, micro] =>
          cases tail with
          | sequence bracket items =>
              cases items with
              | nil => cases hf; rfl
              | cons pico more => exact absurd trivial hvisible
          | dotted next more last => exact absurd trivial hvisible
          | _ => cases hf; rfl
      | low :: micro :: pico :: more =>
          rw [fields?_dotted_of_many, Option.some.injEq] at hf
          subst hf
          exact fields?_dot_of_many _ _ _ _ _ _

/-- Where the tail is read back as the fourth item, the canonical form has
    length four instead of three. -/
theorem fields?_canonical_of_hidesPico (d : Datum) (h : d.HidesPico) :
    (∃ f, d.fields? = some f ∧ f.length = 3) ∧
      ∃ f, d.canonical.fields? = some f ∧ f.length = 4 := by
  unfold HidesPico at h
  split at h
  · next first low micro bracket pico more =>
    exact ⟨⟨_, rfl, rfl⟩, _, Fields.ofItems?_of_many _ _ _ _ _, rfl⟩
  · next first low micro next more last =>
    have hcanonical : (dotted first [low, micro] (dotted next more last)).canonical
        = dot first.canonical [low.canonical, micro.canonical]
          (dot next.canonical (canonicalItems more) last.canonical) := rfl
    refine ⟨⟨_, rfl, rfl⟩,
      ⟨first.canonical, low.canonical, micro.canonical, next.canonical, 4⟩, ?_, rfl⟩
    rw [hcanonical]
    -- The tail is a list of its own, with its first item before any dot.
    rcases exists_dot_eq next.canonical (canonicalItems more) last.canonical with
      ⟨_, htail | ⟨_, htail⟩⟩
    · rw [htail]
      exact Fields.ofItems?_of_many _ _ _ _ _
    · rw [htail]
      exact fields?_dotted_of_many _ _ _ _ _ _
  · exact h.elim

/-- What a datum with fields decodes to has the length of its fields, or is a
    mismatch of length zero. -/
theorem length_of_fields (range : HighRange) (d : Datum) (f : Fields) (hf : d.fields? = some f)
    (before after : Clock) (result : Decoded) (h : Returns (d.decode range) before result after) :
    result.length = f.length ∨ result.length = 0 := by
  rcases decode_cases range d (by rintro rfl; cases hf) (by rintro x rfl; cases hf) with
    ⟨f', c, hf', -, hdecode⟩ | ⟨-, hdecode⟩
  · rw [hf, Option.some.injEq] at hf'
    rw [hdecode, Decoded.returns_worded] at h
    rw [← h.1.2, hf']
    exact Or.inl (Decoded.length_checked range _ _)
  · rw [hdecode, Decoded.returns_worded] at h
    rw [← h.1.2]
    exact Or.inr rfl

/-- A datum that decodes is nil or a double, or its fields are integers. -/
theorem exists_hold_of_decode (range : HighRange) (d : Datum) (before after : Clock)
    (t : Timestamp) (n : Int) (h : Returns (d.decode range) before (.success t n) after) :
    d = .nil ∨ (∃ x, d = .float x) ∨ ∃ f c, d.fields? = some f ∧ f.Hold c := by
  by_cases hnil : d = .nil
  · exact Or.inl hnil
  by_cases hfloat : ∃ x, d = .float x
  · exact Or.inr (Or.inl hfloat)
  rcases decode_cases range d hnil (fun x hx => hfloat ⟨x, hx⟩) with
    ⟨f, c, hf, hc, -⟩ | ⟨-, hdecode⟩
  · exact Or.inr (Or.inr ⟨f, c, hf, hc⟩)
  · rw [hdecode, Decoded.returns_worded_success] at h
    simp only [Decoded.mismatch, reduceCtorEq, false_and] at h

/-- A datum that decodes and its canonical form decode to the same, unless the
    tail of the datum is read back as the fourth item. -/
theorem decode_canonical (range : HighRange) (d : Datum) (before after : Clock) (t : Timestamp)
    (n : Int) (h : Returns (d.decode range) before (.success t n) after)
    (hvisible : ¬ d.HidesPico) : d.canonical.decode range = d.decode range := by
  rcases exists_hold_of_decode range d before after t n h with rfl | ⟨x, rfl⟩ | ⟨f, c, hf, hc⟩
  · rfl
  · rfl
  · have hcanonical := fields?_canonical d f c hf hc hvisible
    rw [decode_of_hold range d f c hf hc,
      decode_of_hold range _ f.canonical c hcanonical (Fields.Hold.canonical f c hc)]
    rfl

/-- Where the tail of a datum is read back as its fourth item, whatever the
    canonical form of the datum decodes to has another length. -/
theorem length_ne_of_hidesPico (range : HighRange) (d : Datum) (before after : Clock)
    (t : Timestamp) (n : Int) (h : Returns (d.decode range) before (.success t n) after)
    (hhidden : d.HidesPico) (later : Clock) (result : Decoded)
    (hresult : Returns (d.canonical.decode range) before result later) : result.length ≠ n := by
  rcases fields?_canonical_of_hidesPico d hhidden with ⟨⟨f, hf, hthree⟩, f', hf', hfour⟩
  have hlen := length_of_fields range d f hf before after _ h
  have hlen' := length_of_fields range d.canonical f' hf' before later result hresult
  -- The datum was no mismatch, so its length is three.
  have hpos : n = 2 ∨ n = 3 ∨ n = 4 := (exact_of_decode range d before after t n h).2.1
  rw [Decoded.length] at hlen
  omega

/-- What is decoded from a datum is decoded from its text, from the same clock
    to the same clock, unless the tail of the datum is read back as its fourth
    item. In that case decoding the text does not end the same way, and if it
    returns a result, then one of another length. -/
theorem decode_reread (range : HighRange) (d : Datum) (text : String) (before after : Clock)
    (t : Timestamp) (n : Int) (hprint : d.toText = .ok text)
    (hdecode : Returns (d.decode range) before (.success t n) after) :
    ∃ u, parse text = .ok u ∧
      (¬ d.HidesPico → Returns (u.decode range) before (.success t n) after) ∧
      (d.HidesPico → outcome (u.decode range) before ≠ (.ok (.success t n), after) ∧
        ∀ result later, Returns (u.decode range) before result later → result.length ≠ n) := by
  refine ⟨d.canonical, parse_of_toText d text hprint, fun hvisible => ?_, fun hhidden => ?_⟩
  · rw [decode_canonical range d before after t n hdecode hvisible]
    exact hdecode
  · have hlength (result : Decoded) (later : Clock)
        (h : Returns (d.canonical.decode range) before result later) : result.length ≠ n :=
      length_ne_of_hidesPico range d before after t n hdecode hhidden later result h
    exact ⟨fun hsame => hlength _ after hsame rfl, hlength⟩

/-- A tail that is spliced behind four items changes nothing. Behind three it
    does. -/
theorem decode_reread_spliced :
    let clock : Clock := { tick := fun _ => ⟨0, 0⟩ }
    let full : Datum := .dotted (.int (-1)) [.int 2, .int 3, .int 4]
      (.dotted (.int 5) [] (.float (.nan true)))
    let short : Datum := .dotted (.int (-1)) [.int 2, .int 3] (.sequence .square [.int 4])
    (∃ text u, full.toText = .ok text ∧ parse text = .ok u ∧
      Returns (u.decode .fixnum) clock
        (.success ⟨-1, 2, 3, 4, by decide, by decide, by decide⟩ 4) clock) ∧
    ∃ text u, short.toText = .ok text ∧ parse text = .ok u ∧
      outcome (u.decode .fixnum) clock
        ≠ (.ok (.success ⟨-1, 2, 3, 0, by decide, by decide, by decide⟩ 3), clock) ∧
      ∀ result later, Returns (u.decode .fixnum) clock result later → result.length ≠ 3 := by
  intro clock full short
  have hfull : Returns (full.decode .fixnum) clock
      (.success ⟨-1, 2, 3, 4, by decide, by decide, by decide⟩ 4) clock := rfl
  have hshort : Returns (short.decode .fixnum) clock
      (.success ⟨-1, 2, 3, 0, by decide, by decide, by decide⟩ 3) clock := rfl
  rcases decode_reread .fixnum full _ clock clock _ 4 rfl hfull with ⟨u, hread, hsame, -⟩
  rcases decode_reread .fixnum short _ clock clock _ 3 rfl hshort with ⟨u', hread', -, hother⟩
  exact ⟨⟨_, u, rfl, hread, hsame not_false⟩, _, u', rfl, hread', hother trivial⟩

/-- The fourth number of `(1 2 3 . (4))` is no part of the time before it was
    printed, and is the picoseconds of the time that is read back. -/
theorem decode_changed_by_rereading :
    let clock : Clock := { tick := fun _ => ⟨0, 0⟩ }
    let d : Datum := .dotted (.int 1) [.int 2, .int 3] (.sequence .round [.int 4])
    let u : Datum := .sequence .round [.int 1, .int 2, .int 3, .int 4]
    let t : Timestamp := ⟨1, 2, 3, 0, by decide, by decide, by decide⟩
    d.toText = .ok "(1 2 3 . (4))" ∧ parse "(1 2 3 . (4))" = .ok u ∧
      Returns (d.decode .fixnum) clock (.success t 3) clock ∧
      Returns (u.decode .fixnum) clock
        (.success ⟨1, 2, 3, 4, by decide, by decide, by decide⟩ 4) clock ∧
      ¬ Returns (u.decode .fixnum) clock (.success t 3) clock := by
  intro clock d u t
  have hprint : d.toText = .ok "(1 2 3 . (4))" := rfl
  have hu : Returns (u.decode .fixnum) clock
      (.success ⟨1, 2, 3, 4, by decide, by decide, by decide⟩ 4) clock := rfl
  refine ⟨hprint, parse_of_toText d _ hprint, rfl, hu, fun h => ?_⟩
  have hsame := (returns_unique _ _ _ _ _ _ hu h).1
  simp only [Decoded.success.injEq, Int.reduceEq, and_false] at hsame

end Datum

end PicoTime
