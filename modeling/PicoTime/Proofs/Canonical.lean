import PicoTime.Proofs.Grammar
import PicoTime.Proofs.Reread
import PicoTime.Proofs.Wording

/-!
# What Reading Returns

A text can be written in many ways that printing never uses: with lists as
tails of lists, with points behind integers, with decimals that are beyond all
doubles or round to a zero with a sign. What is read from it is in canonical
form all the same. There is no empty sequence in it, at any depth, and nothing
stands behind a dot but a number.

The invariant has to hold of tails for a list to have it, since a tail that is
a list is spliced. A canonical tail is nil, a number, a list that is not empty
or a dotted sequence that ends in a number, and in each case what dot notation
means is canonical again. The rest is an induction on the expression.

A canonical datum is its own canonical form, and nothing foreign stands in it.
The integers in one that was read are not too long either, since there are
never more digits than those they were read from. So it is printed, and its
text reads as the datum itself.

## Main definitions

* `Datum.IsNumber`: An integer or a double.
* `Datum.IsCanonical`: A datum in canonical form at every depth.

## Theorems

* `Datum.isCanonical_dot`: Splicing a canonical tail is canonical.
* `Expression.isCanonical_of_datum`: What an expression denotes is canonical,
  and can be shown.
* `Datum.canonical_eq_self`: A canonical datum is its own canonical form.
* `Datum.isCanonical_of_occurs`: So is everything that stands in one.
* `Datum.reread_of_parse`: What is read is printed, and reads as itself.
-/

namespace PicoTime

namespace Datum

/-- An integer or a double. -/
def IsNumber : Datum → Prop
  | .int _ | .float _ => True
  | _ => False

/-- A datum in canonical form: nil, a number, a list with an item, or a dotted
    sequence with a number behind the dot, and all items are in canonical
    form. -/
inductive IsCanonical : Datum → Prop where
  | nil : IsCanonical .nil
  | number {d : Datum} : d.IsNumber → IsCanonical d
  | sequence {first : Datum} {rest : List Datum} :
      (∀ d ∈ first :: rest, IsCanonical d) → IsCanonical (.sequence .round (first :: rest))
  | dotted {first : Datum} {rest : List Datum} {tail : Datum} :
      (∀ d ∈ first :: rest, IsCanonical d) → tail.IsNumber →
      IsCanonical (.dotted first rest tail)

/-! ## What is read -/

theorem isCanonical_ofItems (items : List Datum) (h : ∀ d ∈ items, d.IsCanonical) :
    (ofItems items).IsCanonical := by
  cases items with
  | nil => exact .nil
  | cons first rest => exact .sequence h

/-- Dot notation with a canonical tail means something canonical. -/
theorem isCanonical_dot (first : Datum) (rest : List Datum) (tail : Datum)
    (hitems : ∀ d ∈ first :: rest, d.IsCanonical) (htail : tail.IsCanonical) :
    (dot first rest tail).IsCanonical := by
  -- The items of a tail that is a list follow those before the dot.
  have hspliced (more : List Datum) (hmore : ∀ d ∈ more, d.IsCanonical) :
      ∀ d ∈ first :: (rest ++ more), d.IsCanonical := by
    intro d hd
    rw [← List.cons_append] at hd
    rcases List.mem_append.mp hd with hd | hd
    · exact hitems d hd
    · exact hmore d hd
  cases htail with
  | nil => exact .sequence hitems
  | number hnumber =>
      cases tail with
      | int _ | float _ => exact .dotted hitems hnumber
      | nil | bool _ | text _ | sequence _ _ | dotted _ _ _ | table _ => exact hnumber.elim
  | sequence hmore => exact .sequence (hspliced _ hmore)
  | dotted hmore hnumber => exact .dotted (hspliced _ hmore) hnumber

end Datum

namespace Datum

theorem isShowable_ofItems (items : List Datum) (h : areShowable items = true) :
    (ofItems items).isShowable = true := by
  cases items with
  | nil => rfl
  | cons first rest => exact h

theorem areShowable_append (ds es : List Datum) :
    areShowable (ds ++ es) = (areShowable ds && areShowable es) := by
  induction ds with
  | nil => rfl
  | cons d ds ih => rw [List.cons_append, areShowable, areShowable, ih, Bool.and_assoc]

/-- Dot notation shows its parts and nothing else. -/
theorem isShowable_dot (first : Datum) (rest : List Datum) (tail : Datum) :
    (dot first rest tail).isShowable = (areShowable (first :: rest) && tail.isShowable) := by
  cases tail with
  | nil => simp only [dot, isShowable, Bool.and_true]
  | sequence bracket more =>
      rw [dot, isShowable, isShowable, ← List.cons_append, areShowable_append]
  | dotted next more last =>
      rw [dot, isShowable, isShowable, areShowable_append, areShowable, areShowable]
      simp only [Bool.and_assoc]
  | bool _ | int _ | float _ | text _ | table _ => rfl

end Datum

/-- What an atom is read as is canonical, and has no more digits. -/
theorem Atom.isCanonical_of_datum (a : Atom) (d : Datum) (h : a.datum = .ok d) :
    d.IsCanonical ∧ d.isShowable = true := by
  cases a with
  | int sign digits point =>
      rw [Atom.datum] at h
      split_ifs at h with hlength
      cases h
      refine ⟨.number trivial, hasNumeral_of_natAbs_le (le_of_eq ?_)
        (hasNumeral_numeralValue digits hlength)⟩
      split_ifs
      · exact Int.natAbs_neg _
      · rfl
  | nil =>
      cases h
      exact ⟨.nil, rfl⟩
  | fixed _ _ _ _ | scaled _ _ _ | infinity _ _ _ | nan _ _ _ =>
      cases h
      exact ⟨.number trivial, rfl⟩

namespace Expression

mutual

/-- What an expression denotes is canonical, and every integer in it can be
    written. -/
theorem isCanonical_of_datum (e : Expression) (d : Datum) (h : e.datum = .ok d) :
    d.IsCanonical ∧ d.isShowable = true := by
  match e with
  | .atom a =>
      rw [datum, orFault_eq_ok_iff] at h
      exact a.isCanonical_of_datum d h
  | .list items =>
      rcases (bind_eq_ok_iff _ _ _).mp h with ⟨ds, hitems, h⟩
      cases h
      rcases isCanonical_of_itemData items ds hitems with ⟨hcanonical, hshow⟩
      exact ⟨Datum.isCanonical_ofItems ds hcanonical, Datum.isShowable_ofItems ds hshow⟩
  | .dotted items tail =>
      rcases (bind_eq_ok_iff _ _ _).mp h with ⟨ds, hitems, h⟩
      rcases (bind_eq_ok_iff _ _ _).mp h with ⟨last, htail, h⟩
      rcases isCanonical_of_itemData items ds hitems with ⟨hcanonical, hshow⟩
      rcases isCanonical_of_datum tail last htail with ⟨hcanonical', hshow'⟩
      cases ds with
      | nil => cases h
      | cons first rest =>
          cases h
          refine ⟨Datum.isCanonical_dot first rest last hcanonical hcanonical', ?_⟩
          rw [Datum.isShowable_dot, hshow, hshow']
          rfl

theorem isCanonical_of_itemData (es : List Expression) (ds : List Datum)
    (h : itemData es = .ok ds) : (∀ d ∈ ds, d.IsCanonical) ∧ Datum.areShowable ds = true := by
  match es with
  | [] =>
      cases h
      exact ⟨fun d hd => absurd hd List.not_mem_nil, rfl⟩
  | e :: es =>
      rcases (bind_eq_ok_iff _ _ _).mp h with ⟨first, hfirst, h⟩
      rcases (bind_eq_ok_iff _ _ _).mp h with ⟨rest, hrest, h⟩
      cases h
      rcases isCanonical_of_datum e first hfirst with ⟨hcanonical, hshow⟩
      rcases isCanonical_of_itemData es rest hrest with ⟨hcanonical', hshow'⟩
      refine ⟨List.forall_mem_cons.mpr ⟨hcanonical, hcanonical'⟩, ?_⟩
      rw [Datum.areShowable, hshow, hshow']
      rfl

end

end Expression

namespace Datum

/-! ## What is canonical -/

theorem canonicalItems_eq_self (items : List Datum) (h : ∀ d ∈ items, d.canonical = d) :
    canonicalItems items = items := by
  induction items with
  | nil => rfl
  | cons d ds ih =>
      rw [canonicalItems, h d List.mem_cons_self,
        ih fun e he => h e (List.mem_cons_of_mem d he)]

/-- A canonical datum is its own canonical form. -/
theorem canonical_eq_self (d : Datum) (h : d.IsCanonical) : d.canonical = d := by
  induction h with
  | nil => rfl
  | @number d hnumber =>
      cases d with
      | int _ | float _ => rfl
      | nil | bool _ | text _ | sequence _ _ | dotted _ _ _ | table _ => exact hnumber.elim
  | sequence _ ih =>
      rw [canonical, canonicalItems_eq_self _ ih]
      rfl
  | @dotted first rest tail _ hnumber ih =>
      rw [canonical, ih first List.mem_cons_self,
        canonicalItems_eq_self rest fun d hd => ih d (List.mem_cons_of_mem first hd)]
      cases tail with
      | int _ | float _ => rfl
      | nil | bool _ | text _ | sequence _ _ | dotted _ _ _ | table _ => exact hnumber.elim

/-- Whatever stands in a canonical datum is canonical. -/
theorem isCanonical_of_occurs (inner outer : Datum) (h : inner.Occurs outer)
    (houter : outer.IsCanonical) : inner.IsCanonical := by
  induction h with
  | here => exact houter
  | item hmem _ ih =>
      cases houter with
      | number hnumber => exact hnumber.elim
      | sequence hitems => exact ih (hitems _ hmem)
  | first _ ih =>
      cases houter with
      | number hnumber => exact hnumber.elim
      | dotted hitems _ => exact ih (hitems _ List.mem_cons_self)
  | rest hmem _ ih =>
      cases houter with
      | number hnumber => exact hnumber.elim
      | dotted hitems _ => exact ih (hitems _ (List.mem_cons_of_mem _ hmem))
  | tail _ ih =>
      cases houter with
      | number hnumber => exact hnumber.elim
      | dotted _ hnumber => exact ih (.number hnumber)
  | key _ _ _ | value _ _ _ =>
      cases houter with
      | number hnumber => exact hnumber.elim

theorem not_isForeign_of_isCanonical (d : Datum) (h : d.IsCanonical) : ¬ d.IsForeign := by
  intro hforeign
  cases h with
  | nil | sequence _ | dotted _ _ => exact hforeign
  | number hnumber =>
      cases d with
      | int _ | float _ => exact hforeign
      | nil | bool _ | text _ | sequence _ _ | dotted _ _ _ | table _ => exact hnumber.elim

/-- A canonical datum has a text, if every integer in it can be written. -/
theorem exists_toText_of_isCanonical (d : Datum) (h : d.IsCanonical)
    (hshow : d.isShowable = true) : ∃ text, d.toText = .ok text := by
  rcases hprint : d.print with u | cs
  · -- What is reported would be foreign or too long, and stands in the datum.
    rcases occurs_of_print_eq_error d u hprint with ⟨hforeign | hlong, hin⟩
    · exact absurd hforeign (not_isForeign_of_isCanonical u (isCanonical_of_occurs u d hin h))
    · exact absurd hlong ((isShowable_iff d).mp hshow u hin)
  · exact ⟨_, (toText_eq_ok_iff d _).mpr ⟨cs, hprint, rfl⟩⟩

/-- What is read from a text is in canonical form. It is printed, and its own
    text reads as the very same datum. -/
theorem reread_of_parse (text : String) (d : Datum) (h : parse text = .ok d) :
    d.IsCanonical ∧ ∃ printed, d.toText = .ok printed ∧ parse printed = .ok d := by
  rcases (parse_eq_ok_iff text d).mp h with ⟨e, -, hdatum⟩
  rcases Expression.isCanonical_of_datum e d hdatum with ⟨hcanonical, hshow⟩
  rcases exists_toText_of_isCanonical d hcanonical hshow with ⟨printed, hprinted⟩
  refine ⟨hcanonical, printed, hprinted, ?_⟩
  rw [parse_of_toText d printed hprinted, canonical_eq_self d hcanonical]

/-- Tails of tails, decimals beyond all doubles and below them, a point behind
    an integer and a digit of another script are read, and what they denote is
    printed and read again. -/
theorem reread_of_parse_spliced :
    let text := "(-0. . (-1e-400 . (() (1e309 -7.5e+NaN) . ((+٣ . -2.5e+INF)))))"
    let d : Datum := .sequence .round [.int 0, .float (.zero true), .nil,
      .sequence .round [.float (.infinite false), .float (.nan true)],
      .dotted (.int 3) [] (.float (.infinite true))]
    parse text = .ok d ∧ d.IsCanonical ∧
      ∃ printed, d.toText = .ok printed ∧ parse printed = .ok d := by
  intro text d
  let small : Expression := .atom (.scaled .minus ['1'] ⟨'e', .minus, ['4', '0', '0']⟩)
  let large : Expression := .atom (.scaled .none ['1'] ⟨'e', .none, ['3', '0', '9']⟩)
  let e : Expression := .dotted [.atom (.int .minus ['0'] true)] (.dotted [small] (.dotted
    [.list [], .list [large, .atom (.nan .minus ['7'] ['5'])]]
    (.list [.dotted [.atom (.int .plus ['٣'] false)] (.atom (.infinity .minus ['2'] ['5']))])))
  have htokens : Token.all? text.toList = some e.tokens := by decide +kernel
  have hspelled : Expression.ofText? text = some e := by
    rw [Expression.ofText?, htokens, Option.bind_some, Expression.ofTokens?_eq_some]
  have hsmall : Binary64.ofDecimal ⟨true, 1, -400⟩ = .zero true := by decide +kernel
  have hlarge : Binary64.ofDecimal ⟨false, 1, 309⟩ = .infinite false := by decide +kernel
  have hdatum : e.datum = .ok d := by
    change Except.ok (Datum.sequence .round [.int 0, .float (.ofDecimal ⟨true, 1, -400⟩), .nil,
      .sequence .round [.float (.ofDecimal ⟨false, 1, 309⟩), .float (.nan true)],
      .dotted (.int 3) [] (.float (.infinite true))]) = _
    rw [hsmall, hlarge]
  have hread : parse text = .ok d := (parse_eq_ok_iff text d).mpr ⟨e, hspelled, hdatum⟩
  exact ⟨hread, reread_of_parse text d hread⟩

end Datum

end PicoTime
