import PicoTime.Datum.Parse
import PicoTime.Datum.Print
import PicoTime.Expression.Spelling
import PicoTime.Proofs.Cutting
import PicoTime.Proofs.DecimalText
import PicoTime.Proofs.Timed

/-!
# Printed Data Read Back

Printing fails exactly where a truth value, a text or a table stands, at any
depth, and whatever is printed reads as the canonical form of the datum. Only
an integer with too many digits to be written is a third thing: it is not
printed, and it cannot be reported.

Neither half looks at a whole text at once. Printing a datum prints every
datum in it, so one that cannot be printed is enough to fail. And printed
characters are said to read as an expression when, in front of any closed
text that can be cut, they add the expression's tokens and nothing else. That
is closed under what the printer does, which is to put blanks and brackets
between characters that already read as something.

## Main definitions

* `Datum.IsForeign`: A datum that is never part of a time.
* `Datum.IsTooLong`: An integer that cannot be written.
* `Datum.Occurs`: A datum that stands somewhere in another.
* `Expression.ReadFrom`: Characters that read as an expression.

## Theorems

* `Datum.isShowable_iff`: A datum can be shown if no integer in it is too long.
* `Datum.occurs_of_print_eq_error`: What is reported is there.
* `Datum.exists_print_of_occurs`: All parts of a printed datum are printed.
* `Datum.exists_readFrom_of_print`: What is printed reads as the canonical
  form.
* `Datum.parse_of_toText`: So does the text.
* `Datum.parse_toText`: Both halves for texts.
-/

namespace PicoTime

namespace Datum

/-- A datum that is never part of a time. -/
def IsForeign : Datum → Prop
  | .bool _ | .text _ | .table _ => True
  | _ => False

/-- An integer that cannot be written. -/
def IsTooLong : Datum → Prop
  | .int n => hasNumeral n = false
  | _ => False

/-- The first datum is the second or stands somewhere in it. -/
inductive Occurs : Datum → Datum → Prop where
  | here {d : Datum} : Occurs d d
  | item {inner item : Datum} {bracket : Bracket} {items : List Datum} :
      item ∈ items → Occurs inner item → Occurs inner (.sequence bracket items)
  | first {inner first : Datum} {rest : List Datum} {tail : Datum} :
      Occurs inner first → Occurs inner (.dotted first rest tail)
  | rest {inner item first : Datum} {rest : List Datum} {tail : Datum} :
      item ∈ rest → Occurs inner item → Occurs inner (.dotted first rest tail)
  | tail {inner first : Datum} {rest : List Datum} {tail : Datum} :
      Occurs inner tail → Occurs inner (.dotted first rest tail)
  | key {inner key value : Datum} {entries : List (Datum × Datum)} :
      (key, value) ∈ entries → Occurs inner key → Occurs inner (.table entries)
  | value {inner key value : Datum} {entries : List (Datum × Datum)} :
      (key, value) ∈ entries → Occurs inner value → Occurs inner (.table entries)

theorem Occurs.trans {inner middle outer : Datum} (h : inner.Occurs middle)
    (h' : middle.Occurs outer) : inner.Occurs outer := by
  induction h' with
  | here => exact h
  | item hmem _ ih => exact .item hmem ih
  | first _ ih => exact .first ih
  | rest hmem _ ih => exact .rest hmem ih
  | tail _ ih => exact .tail ih
  | key hmem _ ih => exact .key hmem ih
  | value hmem _ ih => exact .value hmem ih

/-! ## What can be shown -/

theorem areShowable_iff (ds : List Datum) :
    areShowable ds = true ↔ ∀ d ∈ ds, d.isShowable = true := by
  induction ds with
  | nil => simp only [areShowable, List.not_mem_nil, false_implies, implies_true]
  | cons d ds ih => rw [areShowable, Bool.and_eq_true, ih, List.forall_mem_cons]

theorem entriesShowable_iff (entries : List (Datum × Datum)) :
    entriesShowable entries = true
      ↔ ∀ e ∈ entries, e.1.isShowable = true ∧ e.2.isShowable = true := by
  induction entries with
  | nil => simp only [entriesShowable, List.not_mem_nil, false_implies, implies_true]
  | cons e entries ih =>
      rw [entriesShowable, Bool.and_eq_true, Bool.and_eq_true, ih, List.forall_mem_cons]

/-- What stands in a datum that can be shown can be shown. -/
theorem isShowable_of_occurs (inner outer : Datum) (h : inner.Occurs outer)
    (hshow : outer.isShowable = true) : inner.isShowable = true := by
  induction h with
  | here => exact hshow
  | item hmem _ ih =>
      rw [isShowable, areShowable_iff] at hshow
      exact ih (hshow _ hmem)
  | first _ ih =>
      rw [isShowable, Bool.and_eq_true, Bool.and_eq_true] at hshow
      exact ih hshow.1.1
  | rest hmem _ ih =>
      rw [isShowable, Bool.and_eq_true, Bool.and_eq_true, areShowable_iff] at hshow
      exact ih (hshow.1.2 _ hmem)
  | tail _ ih =>
      rw [isShowable, Bool.and_eq_true, Bool.and_eq_true] at hshow
      exact ih hshow.2
  | key hmem _ ih =>
      rw [isShowable, entriesShowable_iff] at hshow
      exact ih (hshow _ hmem).1
  | value hmem _ ih =>
      rw [isShowable, entriesShowable_iff] at hshow
      exact ih (hshow _ hmem).2

mutual

/-- Without an integer that is too long, a datum can be shown. -/
theorem isShowable_of_forall (d : Datum) (h : ∀ u : Datum, u.Occurs d → ¬ u.IsTooLong) :
    d.isShowable = true := by
  match d with
  | .nil | .bool _ | .float _ | .text _ => rfl
  | .int n => exact Bool.not_eq_false _ ▸ h (.int n) .here
  | .sequence bracket items =>
      exact areShowable_of_forall items fun d hd u hu => h u (.item hd hu)
  | .dotted first rest tail =>
      rw [isShowable, Bool.and_eq_true, Bool.and_eq_true]
      exact ⟨⟨isShowable_of_forall first fun u hu => h u (.first hu),
        areShowable_of_forall rest fun d hd u hu => h u (.rest hd hu)⟩,
        isShowable_of_forall tail fun u hu => h u (.tail hu)⟩
  | .table entries =>
      exact entriesShowable_of_forall entries fun key value he =>
        ⟨fun u hu => h u (.key he hu), fun u hu => h u (.value he hu)⟩

theorem areShowable_of_forall (ds : List Datum)
    (h : ∀ d ∈ ds, ∀ u : Datum, u.Occurs d → ¬ u.IsTooLong) : areShowable ds = true := by
  match ds with
  | [] => rfl
  | d :: ds =>
      rw [areShowable, Bool.and_eq_true]
      exact ⟨isShowable_of_forall d (h d List.mem_cons_self),
        areShowable_of_forall ds fun e he => h e (List.mem_cons_of_mem d he)⟩

theorem entriesShowable_of_forall (entries : List (Datum × Datum))
    (h : ∀ key value, (key, value) ∈ entries →
      (∀ u : Datum, u.Occurs key → ¬ u.IsTooLong) ∧ ∀ u : Datum, u.Occurs value → ¬ u.IsTooLong) :
    entriesShowable entries = true := by
  match entries with
  | [] => rfl
  | (key, value) :: entries =>
      rcases h key value List.mem_cons_self with ⟨hkey, hvalue⟩
      rw [entriesShowable, Bool.and_eq_true, Bool.and_eq_true]
      exact ⟨⟨isShowable_of_forall key hkey, isShowable_of_forall value hvalue⟩,
        entriesShowable_of_forall entries fun k v he => h k v (List.mem_cons_of_mem _ he)⟩

end

/-- A datum can be shown if no integer in it is too long. -/
theorem isShowable_iff (d : Datum) :
    d.isShowable = true ↔ ∀ u : Datum, u.Occurs d → ¬ u.IsTooLong := by
  refine ⟨fun h u hin hlong => ?_, isShowable_of_forall d⟩
  have hshow := isShowable_of_occurs u d hin h
  cases u with
  | int n => exact Bool.false_ne_true (hlong.symm.trans hshow)
  | nil | bool _ | float _ | text _ | sequence _ _ | dotted _ _ _ | table _ => exact hlong

/-! ## What cannot be printed -/

mutual

/-- The datum that is reported stands in the one that was to be printed. It is
    never part of a time, or too long. -/
theorem occurs_of_print_eq_error (d : Datum) (u : Datum) (h : d.print = .error u) :
    (u.IsForeign ∨ u.IsTooLong) ∧ u.Occurs d := by
  cases d with
  | nil => cases h
  | int n =>
      rw [print] at h
      split_ifs at h with hnumeral
      cases h
      exact ⟨Or.inr (Bool.eq_false_iff.mpr hnumeral), .here⟩
  | float x => cases h
  | bool value => cases h; exact ⟨Or.inl trivial, .here⟩
  | text value => cases h; exact ⟨Or.inl trivial, .here⟩
  | table entries => cases h; exact ⟨Or.inl trivial, .here⟩
  | sequence bracket items =>
      rw [print] at h
      rcases (bind_eq_error_iff _ _ _).mp h with hitems | ⟨words, _, h⟩
      · rcases occurs_of_printItems_eq_error items u hitems with ⟨hkind, d, hd, hin⟩
        exact ⟨hkind, .item hd hin⟩
      · cases h
  | dotted first rest tail =>
      -- The first item, the other items and the tail are printed in this order.
      rw [print] at h
      rcases (bind_eq_error_iff _ _ _).mp h with hfirst | ⟨head, _, h⟩
      · rcases occurs_of_print_eq_error first u hfirst with ⟨hkind, hin⟩
        exact ⟨hkind, .first hin⟩
      rcases (bind_eq_error_iff _ _ _).mp h with hrest | ⟨words, _, h⟩
      · rcases occurs_of_printItems_eq_error rest u hrest with ⟨hkind, d, hd, hin⟩
        exact ⟨hkind, .rest hd hin⟩
      rcases (bind_eq_error_iff _ _ _).mp h with htail | ⟨last, _, h⟩
      · rcases occurs_of_print_eq_error tail u htail with ⟨hkind, hin⟩
        exact ⟨hkind, .tail hin⟩
      · cases h

theorem occurs_of_printItems_eq_error (ds : List Datum) (u : Datum)
    (h : printItems ds = .error u) : (u.IsForeign ∨ u.IsTooLong) ∧ ∃ d ∈ ds, u.Occurs d := by
  match ds with
  | [] => cases h
  | d :: ds =>
      rw [printItems] at h
      rcases (bind_eq_error_iff _ _ _).mp h with hd | ⟨word, _, h⟩
      · rcases occurs_of_print_eq_error d u hd with ⟨hkind, hin⟩
        exact ⟨hkind, d, List.mem_cons_self, hin⟩
      rcases (bind_eq_error_iff _ _ _).mp h with hds | ⟨words, _, h⟩
      · rcases occurs_of_printItems_eq_error ds u hds with ⟨hkind, e, he, hin⟩
        exact ⟨hkind, e, List.mem_cons_of_mem d he, hin⟩
      · cases h

end

/-- What is never part of a time, or too long, is reported where it stands. -/
theorem print_eq_error (d : Datum) (h : d.IsForeign ∨ d.IsTooLong) : d.print = .error d := by
  cases d with
  | bool value | text value | table entries => rfl
  | int n =>
      rcases h with hforeign | hlong
      · exact hforeign.elim
      · rw [print, if_neg (Bool.eq_false_iff.mp hlong)]
  | nil | float x | sequence bracket items | dotted first rest tail => exact (h.elim id id).elim

/-- Items are printed only if each of them is. -/
theorem forall₂_print (ds : List Datum) (words : List (List Char))
    (h : printItems ds = .ok words) : List.Forall₂ (fun d word => d.print = .ok word) ds words := by
  induction ds generalizing words with
  | nil =>
      cases h
      exact .nil
  | cons d ds ih =>
      rw [printItems] at h
      rcases (bind_eq_ok_iff _ _ _).mp h with ⟨word, hd, h⟩
      rcases (bind_eq_ok_iff _ _ _).mp h with ⟨more, hds, h⟩
      cases h
      exact .cons hd (ih more hds)

/-- A sequence is printed only if its items are. -/
theorem print_sequence_eq_ok (bracket : Bracket) (items : List Datum) (cs : List Char)
    (h : (sequence bracket items).print = .ok cs) :
    ∃ words, List.Forall₂ (fun d word => d.print = .ok word) items words
      ∧ cs = if words.isEmpty then nilWord else '(' :: (spaced words ++ [')']) := by
  rw [print] at h
  rcases (bind_eq_ok_iff _ _ _).mp h with ⟨words, hitems, h⟩
  cases h
  exact ⟨words, forall₂_print items words hitems, rfl⟩

/-- A dotted sequence is printed only if its items and its tail are. -/
theorem print_dotted_eq_ok (first : Datum) (rest : List Datum) (tail : Datum) (cs : List Char)
    (h : (dotted first rest tail).print = .ok cs) :
    ∃ words last, List.Forall₂ (fun d word => d.print = .ok word) (first :: rest) words
      ∧ tail.print = .ok last
      ∧ cs = '(' :: (spaced words ++ ' ' :: '.' :: ' ' :: (last ++ [')'])) := by
  rw [print] at h
  rcases (bind_eq_ok_iff _ _ _).mp h with ⟨head, hfirst, h⟩
  rcases (bind_eq_ok_iff _ _ _).mp h with ⟨words, hrest, h⟩
  rcases (bind_eq_ok_iff _ _ _).mp h with ⟨last, htail, h⟩
  cases h
  refine ⟨head :: words, last, .cons hfirst (forall₂_print rest words hrest), htail, ?_⟩
  simp only [List.append_assoc, List.cons_append, List.nil_append]

theorem exists_print_of_mem (ds : List Datum) (words : List (List Char))
    (h : List.Forall₂ (fun d word => d.print = .ok word) ds words) (d : Datum) (hd : d ∈ ds) :
    ∃ word, d.print = .ok word := by
  induction h with
  | nil => exact absurd hd List.not_mem_nil
  | cons hfirst _ ih =>
      rcases List.mem_cons.mp hd with rfl | hd
      · exact ⟨_, hfirst⟩
      · exact ih hd

/-- Whatever stands in a printed datum is printed as well. -/
theorem exists_print_of_occurs (inner outer : Datum) (h : inner.Occurs outer) (cs : List Char)
    (hprint : outer.print = .ok cs) : ∃ ds, inner.print = .ok ds := by
  induction h generalizing cs with
  | here => exact ⟨cs, hprint⟩
  | item hmem _ ih =>
      rcases print_sequence_eq_ok _ _ cs hprint with ⟨words, hitems, -⟩
      rcases exists_print_of_mem _ words hitems _ hmem with ⟨word, hword⟩
      exact ih word hword
  | first _ ih =>
      rcases print_dotted_eq_ok _ _ _ cs hprint with ⟨words, last, hitems, -, -⟩
      rcases exists_print_of_mem _ words hitems _ List.mem_cons_self with ⟨word, hword⟩
      exact ih word hword
  | rest hmem _ ih =>
      rcases print_dotted_eq_ok _ _ _ cs hprint with ⟨words, last, hitems, -, -⟩
      rcases exists_print_of_mem _ words hitems _ (List.mem_cons_of_mem _ hmem) with ⟨word, hword⟩
      exact ih word hword
  | tail _ ih =>
      rcases print_dotted_eq_ok _ _ _ cs hprint with ⟨words, last, -, htail, -⟩
      exact ih last htail
  -- A table is not printed, whatever stands in it.
  | key _ _ _ => cases hprint
  | value _ _ _ => cases hprint

/-- Nothing foreign stands in a printed datum, and nothing that is too long. -/
theorem not_of_print (d : Datum) (cs : List Char) (h : d.print = .ok cs) (u : Datum)
    (hin : u.Occurs d) : ¬ (u.IsForeign ∨ u.IsTooLong) := by
  intro hkind
  rcases exists_print_of_occurs u d hin cs h with ⟨ds, hds⟩
  rw [print_eq_error u hkind] at hds
  cases hds

end Datum

/-! ## What printed characters read as -/

namespace Expression

/-- Characters that add the tokens of an expression to those of any closed
    text behind them. -/
def ReadFrom (e : Expression) (cs : List Char) : Prop :=
  ∀ rest ts, Closed rest → Token.all? rest = some ts →
    Token.all? (cs ++ rest) = some (e.tokens ++ ts)

/-- The text of a well-formed atom reads as the atom. -/
theorem readFrom_atom (a : Atom) (h : a.WellFormed) : (atom a).ReadFrom a.text := by
  intro rest ts hrest hts
  rw [Token.all?_of_first? _ rest (.atom a) (Token.first?_text a rest h hrest), hts]
  rfl

/-- Words with blanks between them read as items one after another. -/
theorem all?_spaced (es : List Expression) (words : List (List Char))
    (h : List.Forall₂ ReadFrom es words) (rest : List Char) (ts : List Token)
    (hrest : Closed rest) (hts : Token.all? rest = some ts) :
    Token.all? (Datum.spaced words ++ rest) = some (itemTokens es ++ ts) := by
  induction h with
  | nil => exact hts
  | @cons e word es words hword hwords ih =>
      cases hwords with
      | nil =>
          rw [itemTokens, itemTokens, List.append_nil]
          exact hword rest ts hrest hts
      | cons hnext hmore =>
          -- The blank closes the first word and is then passed over.
          have hblank := Token.all?_blank ' ' _ (by decide) |>.trans ih
          have h := hword _ _ (closed_space _) hblank
          rw [itemTokens, Datum.spaced, List.append_assoc, List.append_assoc, List.cons_append]
          · exact h
          · simp

theorem readFrom_list (es : List Expression) (words : List (List Char))
    (h : List.Forall₂ ReadFrom es words) :
    (list es).ReadFrom ('(' :: (Datum.spaced words ++ [')'])) := by
  intro rest ts _ hts
  have hclosing : Token.all? (')' :: rest) = some (.closing :: ts) := by
    rw [Token.all?_of_first? _ rest .closing rfl, hts]
    rfl
  have hitems := all?_spaced es words h (')' :: rest) _ (closed_closing rest) hclosing
  rw [List.cons_append, List.append_assoc, List.singleton_append,
    Token.all?_of_first? _ _ .opening rfl, hitems]
  simp only [tokens, Option.map_some, List.cons_append, List.append_assoc, List.nil_append]

theorem readFrom_dotted (es : List Expression) (tail : Expression) (words : List (List Char))
    (last : List Char) (h : List.Forall₂ ReadFrom es words) (htail : tail.ReadFrom last) :
    (dotted es tail).ReadFrom
      ('(' :: (Datum.spaced words ++ ' ' :: '.' :: ' ' :: (last ++ [')']))) := by
  intro rest ts _ hts
  have hclosing : Token.all? (')' :: rest) = some (.closing :: ts) := by
    rw [Token.all?_of_first? _ rest .closing rfl, hts]
    rfl
  have hlast := htail (')' :: rest) _ (closed_closing rest) hclosing
  -- The dot stands alone, so it begins no double.
  have hdot : Token.all? (' ' :: '.' :: ' ' :: (last ++ ')' :: rest))
      = some (.dot :: (tail.tokens ++ .closing :: ts)) := by
    rw [Token.all?_blank ' ' _ (by decide), Token.all?_of_first? _ _ .dot rfl,
      Token.all?_blank ' ' _ (by decide), hlast]
    rfl
  have hitems := all?_spaced es words h _ _ (closed_space _) hdot
  simp only [List.cons_append, List.append_assoc, List.nil_append]
  rw [Token.all?_of_first? _ _ .opening rfl, hitems]
  simp only [tokens, Option.map_some, List.cons_append, List.append_assoc, List.nil_append]

end Expression

/-- The text of an integer is that of an atom that denotes it, since as many
    digits are read as are written. -/
theorem exists_atom_printInt (n : Int) (h : hasNumeral n = true) :
    ∃ a : Atom, a.WellFormed ∧ a.text = printInt n ∧ a.datum = .ok (.int n) := by
  have hvalue := numeralValue_toDigits n.natAbs
  have hlength := of_decide_eq_true h
  by_cases hneg : n < 0
  · refine ⟨.int .minus (Nat.toDigits 10 n.natAbs) false, Decimal.isNumeral_toDigits _, ?_, ?_⟩
    · simp only [printInt, if_pos hneg, Atom.text, Sign.text, List.cons_append, List.nil_append,
        Bool.false_eq_true, if_false, List.append_nil]
    · rw [Atom.datum, if_pos hlength, Atom.value, if_pos (by decide), hvalue]
      congr 2
      omega
  · refine ⟨.int .none (Nat.toDigits 10 n.natAbs) false, Decimal.isNumeral_toDigits _, ?_, ?_⟩
    · simp only [printInt, if_neg hneg, Atom.text, Sign.text, List.nil_append, Bool.false_eq_true,
        if_false, List.append_nil]
    · rw [Atom.datum, if_pos hlength, Atom.value, if_neg (by decide), hvalue]
      congr 2
      omega

/-- The text of a double is that of an atom that denotes it. -/
theorem exists_atom_print (x : Binary64) :
    ∃ a : Atom, a.WellFormed ∧ a.text = x.print ∧ a.datum = .ok (.float x) := by
  have hone : IsNumeral ['1'] := Decimal.isNumeral_toDigits 1
  cases x with
  | nan negative =>
      refine ⟨.nan (if negative then .minus else .none) ['0'] ['0'],
        ⟨isNumeral_zero, isNumeral_zero⟩, ?_, ?_⟩ <;> cases negative <;> rfl
  | infinite negative =>
      refine ⟨.infinity (if negative then .minus else .none) ['1'] ['0'],
        ⟨hone, isNumeral_zero⟩, ?_, ?_⟩ <;> cases negative <;> rfl
  | finite negative rank =>
      rcases Decimal.exists_atom_render (Decimal.shortest negative rank) with
        ⟨a, hwell, htext, hvalue⟩
      refine ⟨a, hwell, htext, ?_⟩
      rw [Decimal.ofDecimal_shortest] at hvalue
      -- No integer is a double, so the digits are not counted.
      cases a with
      | int sign digits point => cases hvalue
      | nil | fixed _ _ _ _ | scaled _ _ _ | infinity _ _ _ | nan _ _ _ =>
          rw [Atom.datum, hvalue]
          exact nofun

namespace Datum

mutual

/-- What a datum is printed as reads as its canonical form. -/
theorem exists_readFrom_of_print (d : Datum) (cs : List Char) (h : d.print = .ok cs) :
    ∃ e : Expression, e.datum = .ok d.canonical ∧ e.ReadFrom cs := by
  -- Nil and numbers are atoms, and their canonical form is themselves.
  have hatom (a : Atom) (hwell : a.WellFormed) (htext : a.text = cs) (hdatum : a.datum = .ok d)
      (hcanonical : d.canonical = d) :
      ∃ e : Expression, e.datum = .ok d.canonical ∧ e.ReadFrom cs := by
    refine ⟨.atom a, ?_, ?_⟩
    · rw [Expression.datum, hdatum, hcanonical]
      rfl
    · rw [← htext]
      exact Expression.readFrom_atom a hwell
  match d with
  | .bool _ | .text _ | .table _ => cases h
  | .nil =>
      cases h
      exact hatom .nil trivial rfl rfl rfl
  | .int n =>
      rw [print] at h
      split_ifs at h with hnumeral
      cases h
      rcases exists_atom_printInt n hnumeral with ⟨a, hwell, htext, hdatum⟩
      exact hatom a hwell htext hdatum rfl
  | .float x =>
      cases h
      rcases exists_atom_print x with ⟨a, hwell, htext, hdatum⟩
      exact hatom a hwell htext hdatum rfl
  | .sequence bracket items =>
      rcases print_sequence_eq_ok bracket items cs h with ⟨words, hitems, rfl⟩
      rcases exists_readFrom_of_items items words hitems with ⟨es, hdata, hreads⟩
      cases hreads with
      | nil =>
          -- An empty sequence is printed by the word for nil.
          cases hitems
          exact ⟨.atom .nil, rfl, Expression.readFrom_atom .nil trivial⟩
      | cons hread hmore =>
          refine ⟨.list _, ?_, Expression.readFrom_list _ _ (.cons hread hmore)⟩
          rw [Expression.datum, hdata]
          rfl
  | .dotted first rest tail =>
      rcases print_dotted_eq_ok first rest tail cs h with
        ⟨_, last, _ | ⟨hfirst, hrest⟩, htail, rfl⟩
      rcases exists_readFrom_of_print first _ hfirst with ⟨e, hdatum, hread⟩
      rcases exists_readFrom_of_items rest _ hrest with ⟨es, hdata, hreads⟩
      rcases exists_readFrom_of_print tail last htail with ⟨etail, hdatumTail, hreadTail⟩
      refine ⟨.dotted (e :: es) etail, ?_,
        Expression.readFrom_dotted _ _ _ _ (.cons hread hreads) hreadTail⟩
      rw [Expression.datum, Expression.itemData, hdatum, hdata, hdatumTail]
      rfl

theorem exists_readFrom_of_items (ds : List Datum) (words : List (List Char))
    (h : List.Forall₂ (fun d word => d.print = .ok word) ds words) :
    ∃ es, Expression.itemData es = .ok (canonicalItems ds)
      ∧ List.Forall₂ Expression.ReadFrom es words := by
  match ds, words, h with
  | [], _, .nil => exact ⟨[], rfl, .nil⟩
  | d :: ds, _, .cons hd hds =>
      rcases exists_readFrom_of_print d _ hd with ⟨e, hdatum, hread⟩
      rcases exists_readFrom_of_items ds _ hds with ⟨es, hdata, hreads⟩
      refine ⟨e :: es, ?_, .cons hread hreads⟩
      rw [Expression.itemData, hdatum, hdata]
      rfl

end

theorem toText_eq_ok_iff (d : Datum) (text : String) :
    d.toText = .ok text ↔ ∃ cs, d.print = .ok cs ∧ text = String.ofList cs := by
  rw [toText]
  rcases d.print with u | cs
  · simp only [reduceCtorEq, false_and, exists_false]
  · simp only [Except.ok.injEq, exists_eq_left', eq_comm]

/-- The text of a datum reads as its canonical form. -/
theorem parse_of_toText (d : Datum) (text : String) (h : d.toText = .ok text) :
    parse text = .ok d.canonical := by
  rcases (toText_eq_ok_iff d text).mp h with ⟨cs, hprint, rfl⟩
  rcases exists_readFrom_of_print d cs hprint with ⟨e, hdatum, hread⟩
  have htokens := hread [] [] closed_nil Token.all?_nil
  rw [List.append_nil, List.append_nil] at htokens
  have hexpression : Expression.ofText? (String.ofList cs) = some e := by
    rw [Expression.ofText?, String.toList_ofList, htokens, Option.bind_some,
      Expression.ofTokens?_eq_some]
  rw [parse, hexpression]
  exact hdatum

/-- Printing a datum as text fails, with a report of something foreign that
    stands in it, exactly if something foreign stands in it. In every other
    case the text reads as the canonical form of the datum. This is so if every
    integer in the datum can be written. One that cannot be written makes
    printing fail as well, and either it is that which is said, or something
    foreign is reported that was met before. -/
theorem parse_toText (d : Datum) :
    ((∀ u : Datum, u.Occurs d → ¬ u.IsTooLong) →
      ((∃ fault, d.toText = .error fault) ↔ ∃ u : Datum, u.IsForeign ∧ u.Occurs d)
        ∧ (∀ fault, d.toText = .error fault →
          ∃ u : Datum, fault = .unprintable u ∧ u.IsForeign ∧ u.Occurs d)
        ∧ ((∀ u : Datum, u.Occurs d → ¬ u.IsForeign) →
          ∃ text, d.toText = .ok text ∧ parse text = .ok d.canonical))
      ∧ ((∃ u : Datum, u.Occurs d ∧ u.IsTooLong) →
        ∃ fault, d.toText = .error fault ∧ (fault = .argument .integerTooLong
          ∨ ∃ u : Datum, fault = .unprintable u ∧ u.IsForeign ∧ u.Occurs d)) := by
  rcases hprint : d.print with u | cs
  · rcases occurs_of_print_eq_error d u hprint with ⟨hkind, hin⟩
    have htext : d.toText
        = .error (if u.isShowable then .unprintable u else .argument .integerTooLong) := by
      rw [toText, hprint]
    refine ⟨fun hshort => ?_, fun _ => ⟨_, htext, ?_⟩⟩
    · -- What is met is foreign, and whatever stands in it can be shown.
      have hforeign := hkind.resolve_right (hshort u hin)
      have hshow := (isShowable_iff u).mpr fun v hv => hshort v (hv.trans hin)
      rw [if_pos hshow] at htext
      refine ⟨⟨fun _ => ⟨u, hforeign, hin⟩, fun _ => ⟨_, htext⟩⟩, fun fault hfault => ?_,
        fun hnone => absurd hforeign (hnone u hin)⟩
      rw [htext, Except.error.injEq] at hfault
      exact ⟨u, hfault.symm, hforeign, hin⟩
    · split_ifs with hshow
      · have hshort := (isShowable_iff u).mp hshow u .here
        exact Or.inr ⟨u, rfl, hkind.resolve_right hshort, hin⟩
      · exact Or.inl rfl
  · -- All that stands in the datum was printed, and the text is read back.
    have htext := (toText_eq_ok_iff d _).mpr ⟨cs, hprint, rfl⟩
    have hnone := not_of_print d cs hprint
    refine ⟨fun _ => ⟨⟨?_, ?_⟩, ?_, fun _ => ⟨_, htext, parse_of_toText d _ htext⟩⟩, ?_⟩
    · rintro ⟨fault, hfault⟩
      rw [htext] at hfault
      cases hfault
    · rintro ⟨u, hforeign, hin⟩
      exact absurd (Or.inl hforeign) (hnone u hin)
    · intro fault hfault
      rw [htext] at hfault
      cases hfault
    · rintro ⟨u, hin, hlong⟩
      exact absurd (Or.inr hlong) (hnone u hin)

/-- A tail of a tail is spliced, an empty list becomes nil, and a truth value
    in a list is reported. -/
theorem parse_toText_spliced :
    let least : Binary64 := .finite true ⟨1, by decide⟩
    let d : Datum := .dotted (.int (-12)) [.sequence .square [], .float least]
      (.dotted (.float (.infinite true)) [] (.sequence .square [.float (.nan true)]))
    let foreign : Datum := .dotted .nil [] (.sequence .round [.int 1, .bool true])
    ((∀ u : Datum, u.Occurs d → ¬ u.IsForeign)
        ∧ ∃ text, d.toText = .ok text ∧ parse text = .ok (.sequence .round [.int (-12), .nil,
          .float least, .float (.infinite true), .float (.nan true)]))
      ∧ foreign.toText = .error (.unprintable (.bool true))
      ∧ ∃ u : Datum, Fault.unprintable (.bool true) = .unprintable u ∧ u.IsForeign
        ∧ u.Occurs foreign := by
  intro least d foreign
  have hforeign (u : Datum) (hu : u.Occurs d) : ¬ u.IsForeign :=
    fun h => not_of_print d _ rfl u hu (Or.inl h)
  have hreport : foreign.toText = .error (.unprintable (.bool true)) := rfl
  have hshort := (isShowable_iff d).mp rfl
  have hshort' := (isShowable_iff foreign).mp rfl
  exact ⟨⟨hforeign, ((parse_toText d).1 hshort).2.2 hforeign⟩, hreport,
    ((parse_toText foreign).1 hshort').2.1 _ hreport⟩

end Datum

end PicoTime
