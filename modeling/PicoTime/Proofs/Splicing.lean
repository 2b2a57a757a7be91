import PicoTime.Proofs.Breaks
import PicoTime.Proofs.Canonical

/-!
# Lists Behind Dots

A list behind a dot runs on from the items before it, so a text may be written
with any number of dots that are not there in what it denotes. Taking one away
is a change inside a text, and two facts make it a harmless one.

The first is about expressions. The dotted list and the list it runs on to
denote the same, and reading never looks at anything else of an expression
that is complete. Two states of the reader with the same lists open around
expressions of the same value stay so with every further token, hence at the
end of every text.

The second is about characters. The text of a list begins with a bracket and
ends with one, and a bracket is no part of any other token, so the tokens of a
text around it are found apart from those of the list. Nothing has to be known
of the text around it, not even that it can be read.

A chain of dots is then undone from the inside. What is left is one list with
one dot at most, and behind it whatever ended the chain.

## Main definitions

* `Expression.Progress.Alike`: States that hold expressions of the same value.
* `Enclosed`: A text with brackets around it.
* `Datum.bracketed`, `Datum.dotBracketed`: The text of a list, and of one with
  a dot.
* `Datum.chained`: Lists of which each stands behind the dot of the one before.
* `Datum.Interchangeable`: Texts that stand for each other in any text.

## Theorems

* `Expression.datum_dotted_list`, `Expression.datum_dotted_dotted`: A list
  behind a dot denotes what it runs on to.
* `Expression.rel_step`, `Expression.rel_run`: Reading keeps states alike.
* `Token.all?_inside`: The tokens of a text with a list in it.
* `Datum.interchangeable_of_datum`: Lists that denote the same are
  interchangeable.
* `Datum.interchangeable_chained`: A chain of lists is one list with one dot.
* `Datum.interchangeable_splice`: Dots before lists change nothing.
-/

namespace PicoTime

namespace Expression

/-! ## What dotted lists denote -/

/-- The values of items are found one after another. -/
theorem itemData_append (es fs : List Expression) :
    itemData (es ++ fs) = itemData es >>= fun ds => itemData fs >>= fun more =>
      pure (ds ++ more) := by
  induction es with
  | nil =>
      change itemData fs = itemData fs >>= fun more => pure more
      exact (bind_pure _).symm
  | cons e es ih =>
      rw [List.cons_append, itemData, itemData, ih]
      rcases e.datum with _ | d
      · rfl
      rcases itemData es with _ | ds
      · rfl
      rcases itemData fs with _ | more <;> rfl

/-- Items have as many values. -/
theorem itemData_ne_nil (es : List Expression) (hes : es ≠ []) : itemData es ≠ .ok [] := by
  intro h
  have hempty := isEmpty_of_itemData es [] h
  cases es with
  | nil => exact hes rfl
  | cons e es => cases hempty

/-- A list behind a dot denotes what it runs on to. -/
theorem datum_dotted_list (es fs : List Expression) (hes : es ≠ []) :
    (dotted es (list fs)).datum = (list (es ++ fs)).datum := by
  have hne := itemData_ne_nil es hes
  rw [datum, datum, datum, itemData_append]
  rcases hitems : itemData es with _ | _ | ⟨first, rest⟩
  · rfl
  · exact absurd hitems hne
  rcases itemData fs with _ | _ | ⟨next, more⟩
  · rfl
  · -- No items behind the dot are nil there, and nothing to append.
    change Except.ok (Datum.ofItems (first :: rest)) = .ok (.ofItems (first :: rest ++ []))
    rw [List.append_nil]
  · rfl

end Expression

/-- A dot behind a dot is the later one. -/
theorem Datum.dot_dot (first : Datum) (rest : List Datum) (next : Datum) (more : List Datum)
    (tail : Datum) :
    dot first rest (dot next more tail) = dot first (rest ++ next :: more) tail := by
  cases tail with
  | sequence _ _ | dotted _ _ _ =>
      simp only [dot, List.append_assoc, List.cons_append]
  | nil | bool _ | int _ | float _ | text _ | table _ => rfl

namespace Expression

/-- A dotted list behind a dot denotes what it runs on to. -/
theorem datum_dotted_dotted (es fs : List Expression) (tail : Expression) (hes : es ≠ [])
    (hfs : fs ≠ []) : (dotted es (dotted fs tail)).datum = (dotted (es ++ fs) tail).datum := by
  have hne := itemData_ne_nil es hes
  have hne' := itemData_ne_nil fs hfs
  rw [datum, datum, datum, itemData_append]
  rcases hitems : itemData es with _ | _ | ⟨first, rest⟩
  · rfl
  · exact absurd hitems hne
  rcases hmore : itemData fs with _ | _ | ⟨next, more⟩
  · rfl
  · exact absurd hmore hne'
  rcases tail.datum with _ | d
  · rfl
  · exact congrArg Except.ok (Datum.dot_dot first rest next more d)

/-! ## Reading what denotes the same -/

/-- Open lists at the same place, with items of the same values. -/
inductive Pending.Alike : Pending → Pending → Prop where
  | beforeDot {items items' : List Expression} :
      items.map datum = items'.map datum → Alike (.beforeDot items) (.beforeDot items')
  | afterDot {items items' : List Expression} :
      items.map datum = items'.map datum → Alike (.afterDot items) (.afterDot items')
  | afterTail {items items' : List Expression} {tail tail' : Expression} :
      items.map datum = items'.map datum → tail.datum = tail'.datum →
      Alike (.afterTail items tail) (.afterTail items' tail')

/-- States with the same lists open, and expressions of the same values. -/
inductive Progress.Alike : Progress → Progress → Prop where
  | within {lists lists' : List Pending} :
      List.Forall₂ Pending.Alike lists lists' → Alike (.within lists) (.within lists')
  | complete {e e' : Expression} : e.datum = e'.datum → Alike (.complete e) (.complete e')

theorem Pending.Alike.refl (p : Pending) : p.Alike p := by
  cases p with
  | beforeDot _ => exact .beforeDot rfl
  | afterDot _ => exact .afterDot rfl
  | afterTail _ _ => exact .afterTail rfl rfl

/-- The values of items are found from the value of each. -/
theorem itemData_congr (es es' : List Expression) (h : es.map datum = es'.map datum) :
    itemData es = itemData es' := by
  induction es generalizing es' with
  | nil =>
      rw [List.map_nil, eq_comm, List.map_eq_nil_iff] at h
      rw [h]
  | cons e es ih =>
      rw [List.map_cons, eq_comm, List.map_eq_cons_iff] at h
      rcases h with ⟨e', rest, rfl, hfirst, hrest⟩
      rw [itemData, itemData, hfirst, ih rest hrest.symm]

variable {lists lists' : List Pending} {e e' : Expression} {state state' : Progress}

/-- An expression is put in its place by its value alone. -/
theorem rel_place (hlists : List.Forall₂ Pending.Alike lists lists')
    (he : e.datum = e'.datum) :
    Option.Rel Progress.Alike (place e lists) (place e' lists') := by
  cases hlists with
  | nil => exact .some (.complete he)
  | cons hfirst hrest =>
      cases hfirst with
      | beforeDot hitems =>
          refine .some (.within (.cons (.beforeDot ?_) hrest))
          rw [List.map_append, List.map_append, hitems, List.map_cons, List.map_cons, he]
      | afterDot hitems => exact .some (.within (.cons (.afterTail hitems he) hrest))
      | afterTail _ _ => exact .none

/-- A token keeps states alike. -/
theorem rel_step (h : state.Alike state') (t : Token) :
    Option.Rel Progress.Alike (step state t) (step state' t) := by
  cases h with
  | complete _ => exact .none
  | within hlists =>
      cases t with
      | atom a => exact rel_place hlists rfl
      | opening => exact .some (.within (.cons (.beforeDot rfl) hlists))
      | dot =>
          cases hlists with
          | nil => exact .none
          | cons hfirst hrest =>
              cases hfirst with
              | beforeDot hitems => exact .some (.within (.cons (.afterDot hitems) hrest))
              | afterDot _ | afterTail _ _ => exact .none
      | closing =>
          cases hlists with
          | nil => exact .none
          | cons hfirst hrest =>
              -- The list that is closed denotes what its items and its tail do.
              cases hfirst with
              | beforeDot hitems =>
                  refine rel_place hrest ?_
                  rw [datum, datum, itemData_congr _ _ hitems]
              | afterDot _ => exact .none
              | afterTail hitems htail =>
                  refine rel_place hrest ?_
                  rw [datum, datum, itemData_congr _ _ hitems, htail]

/-- Any number of tokens does. -/
theorem rel_run (state? state'? : Option Progress)
    (h : Option.Rel Progress.Alike state? state'?) (ts : List Token) :
    Option.Rel Progress.Alike (state?.bind fun state => run state ts)
      (state'?.bind fun state => run state ts) := by
  induction ts generalizing state? state'? with
  | nil =>
      cases h with
      | none => exact .none
      | some h => exact .some h
  | cons t ts ih =>
      cases h with
      | none => exact .none
      | some h => exact ih _ _ (rel_step h t)

theorem run_append (state : Progress) (ts us : List Token) :
    run state (ts ++ us) = (run state ts).bind fun next => run next us := by
  induction ts generalizing state with
  | nil => rfl
  | cons t ts ih =>
      rw [List.cons_append, run, run, Option.bind_assoc]
      exact congrArg _ (funext ih)

/-- Nothing is read behind a whole expression. -/
theorem run_complete_tokens (outer : Expression) (ts : List Token) :
    run (.complete outer) (e.tokens ++ ts) = none := by
  cases e <;> rfl

/-- One expression is read as another of its value is. -/
theorem rel_run_tokens (he : e.datum = e'.datum) (ts : List Token) :
    Option.Rel Progress.Alike (run state (e.tokens ++ ts)) (run state (e'.tokens ++ ts)) := by
  cases state with
  | complete outer =>
      rw [run_complete_tokens, run_complete_tokens]
      exact .none
  | within lists =>
      rw [run_tokens, run_tokens]
      have hlists := List.forall₂_same.mpr fun p (_ : p ∈ lists) => Pending.Alike.refl p
      exact rel_run _ _ (rel_place hlists he) ts

/-- The value of a whole text does not depend on how a part of it is spelled. -/
theorem map_datum_ofTokens? (he : e.datum = e'.datum) (before after : List Token) :
    (ofTokens? (before ++ (e.tokens ++ after))).map datum
      = (ofTokens? (before ++ (e'.tokens ++ after))).map datum := by
  rw [ofTokens?, ofTokens?, run_append, run_append]
  rcases run (.within []) before with _ | state
  · rfl
  rw [Option.bind_some, Option.bind_some]
  have hrel : Option.Rel Progress.Alike (run state (e.tokens ++ after))
      (run state (e'.tokens ++ after)) := rel_run_tokens he after
  generalize run state (e.tokens ++ after) = last? at hrel ⊢
  generalize run state (e'.tokens ++ after) = last'? at hrel ⊢
  cases hrel with
  | none => rfl
  | some h =>
      cases h with
      | within _ => rfl
      | complete hvalue => exact congrArg some hvalue

end Expression

/-! ## Texts of lists -/

/-- A text with brackets around it. -/
def Enclosed (cs : List Char) : Prop :=
  ∃ inner, cs = '(' :: (inner ++ [')'])

theorem Token.all?_closing (cs : List Char) :
    all? (')' :: cs) = (all? cs).map (Token.closing :: ·) :=
  all?_of_first? _ cs .closing rfl

/-- The tokens of a text with another one in it that has brackets around it. -/
theorem Token.all?_inside (cs before after : List Char) (h : Enclosed cs) :
    all? (before ++ (cs ++ after)) = (all? before).bind fun us =>
      (all? cs).bind fun ts => (all? after).map fun vs => us ++ (ts ++ vs) := by
  rcases h with ⟨inner, rfl⟩
  have hopening : Breaks ('(' :: (inner ++ ')' :: after)) := breaks_cons '(' _ (by decide)
  have hinner (rest : List Char) : all? ('(' :: inner ++ ')' :: rest)
      = (all? ('(' :: inner)).bind fun ts => (all? rest).map (ts ++ .closing :: ·) := by
    rw [all?_append _ _ (breaks_cons ')' rest (by decide)), all?_closing]
    simp only [Option.map_map, Function.comp_def]
  simp only [List.cons_append, List.append_assoc, List.nil_append] at hinner ⊢
  rw [all?_append before _ hopening, hinner after, hinner [], all?_nil]
  rcases all? before with _ | us
  · rfl
  rcases all? ('(' :: inner) with _ | ts
  · rfl
  rcases all? after with _ | vs
  · rfl
  simp only [Option.bind_some, Option.map_some, List.append_assoc, List.cons_append,
    List.nil_append]

namespace Datum

/-- The text of a list. -/
def bracketed (words : List (List Char)) : List Char :=
  '(' :: (spaced words ++ [')'])

/-- The text of a list with a dot. -/
def dotBracketed (words : List (List Char)) (last : List Char) : List Char :=
  '(' :: (spaced words ++ ' ' :: '.' :: ' ' :: (last ++ [')']))

/-- The text of a list, behind the dot of which the next list stands, and so
    on to the last text. -/
def chained : List (List (List Char)) → List Char → List Char
  | [], last => last
  | words :: more, last => dotBracketed words (chained more last)

theorem enclosed_bracketed (words : List (List Char)) : Enclosed (bracketed words) :=
  ⟨_, rfl⟩

theorem enclosed_dotBracketed (words : List (List Char)) (last : List Char) :
    Enclosed (dotBracketed words last) :=
  ⟨spaced words ++ ' ' :: '.' :: ' ' :: last, by
    simp only [dotBracketed, List.append_assoc, List.cons_append]⟩

/-- The word is a text that reads as the datum. -/
def Reads (word : List Char) (d : Datum) : Prop :=
  parse (String.ofList word) = .ok d

/-- Both texts read as the same datum, or neither reads as one. If they are
    refused, then for a list without an item before its dot both or neither, and
    for an integer of so many digits both or neither. -/
def ReadAlike (text text' : String) : Prop :=
  (∀ d, parse text = .ok d ↔ parse text' = .ok d)
    ∧ (parse text = .error (.time (.invalid .noItemBeforeDot))
      ↔ parse text' = .error (.time (.invalid .noItemBeforeDot)))
    ∧ ∀ n, parse text = .error (.argument (.numeralTooLong n))
      ↔ parse text' = .error (.argument (.numeralTooLong n))

/-- One text may stand for the other anywhere in a larger one. -/
def Interchangeable (cs cs' : List Char) : Prop :=
  ∀ before after : List Char, ReadAlike (String.ofList (before ++ (cs ++ after)))
    (String.ofList (before ++ (cs' ++ after)))

variable {cs cs' cs'' : List Char}

theorem Interchangeable.refl (cs : List Char) : Interchangeable cs cs :=
  fun _ _ => ⟨fun _ => Iff.rfl, Iff.rfl, fun _ => Iff.rfl⟩

theorem Interchangeable.trans (h : Interchangeable cs cs') (h' : Interchangeable cs' cs'') :
    Interchangeable cs cs'' := by
  intro before after
  rcases h before after with ⟨hread, hdot, hlong⟩
  rcases h' before after with ⟨hread', hdot', hlong'⟩
  exact ⟨fun d => (hread d).trans (hread' d), hdot.trans hdot',
    fun n => (hlong n).trans (hlong' n)⟩

/-- Behind a dot is one of the places in a larger text. -/
theorem Interchangeable.behind_dot (h : Interchangeable cs cs') (words : List (List Char)) :
    Interchangeable (dotBracketed words cs) (dotBracketed words cs') := by
  intro before after
  have h := h (before ++ '(' :: (spaced words ++ [' ', '.', ' '])) (')' :: after)
  simp only [dotBracketed, List.append_assoc, List.cons_append, List.nil_append] at h ⊢
  exact h

/-- Interchangeable texts read alike on their own. -/
theorem Interchangeable.reads_iff (h : Interchangeable cs cs') (d : Datum) :
    Reads cs d ↔ Reads cs' d := by
  have h := (h [] []).1 d
  rw [List.nil_append, List.nil_append, List.append_nil, List.append_nil] at h
  exact h

/-- How reading a text ends is how its expression is evaluated, unless the text
    spells none. -/
theorem parse_eq_iff_datum (text : String) (result : Except Fault Datum)
    (h : result ≠ .error (.time (.malformed text))) :
    parse text = result ↔ (Expression.ofText? text).map Expression.datum = some result := by
  rcases hspelled : Expression.ofText? text with _ | e
  · rw [(parse_eq_malformed_iff text).mpr hspelled]
    exact iff_of_false h.symm nofun
  · rw [parse_of_ofText? text e hspelled, Option.map_some, Option.some.injEq]

/-- How a text reads is a matter of what its expression denotes. -/
theorem readAlike_of_datum (text text' : String)
    (h : (Expression.ofText? text).map Expression.datum
      = (Expression.ofText? text').map Expression.datum) : ReadAlike text text' := by
  have halike (result : Except Fault Datum)
      (hresult : ∀ other, result ≠ .error (.time (.malformed other))) :
      parse text = result ↔ parse text' = result := by
    rw [parse_eq_iff_datum text result (hresult text), h,
      parse_eq_iff_datum text' result (hresult text')]
  exact ⟨fun d => halike (.ok d) (fun _ h => by cases h),
    halike (.error (.time (.invalid .noItemBeforeDot))) (fun _ h => by cases h),
    fun n => halike (.error (.argument (.numeralTooLong n))) (fun _ h => by cases h)⟩

/-- Lists that denote the same are interchangeable, in texts of any kind. -/
theorem interchangeable_of_datum (e e' : Expression) (hcs : Enclosed cs) (hcs' : Enclosed cs')
    (he : e.ReadFrom cs) (he' : e'.ReadFrom cs') (h : e.datum = e'.datum) :
    Interchangeable cs cs' := by
  have htokens := he [] [] closed_nil Token.all?_nil
  have htokens' := he' [] [] closed_nil Token.all?_nil
  simp only [List.append_nil] at htokens htokens'
  intro before after
  refine readAlike_of_datum _ _ ?_
  rw [Expression.ofText?, Expression.ofText?, String.toList_ofList, String.toList_ofList,
    Token.all?_inside cs before after hcs, Token.all?_inside cs' before after hcs', htokens,
    htokens']
  rcases Token.all? before with _ | us
  · rfl
  rcases Token.all? after with _ | vs
  · rfl
  exact Expression.map_datum_ofTokens? h us vs

/-! ## Words that read -/

/-- A word that reads spells an expression, whatever closed text follows. -/
theorem exists_readFrom_of_reads (word : List Char) (d : Datum) (h : Reads word d) :
    ∃ e : Expression, e.ReadFrom word ∧ e.datum = .ok d := by
  rcases (parse_eq_ok_iff _ d).mp h with ⟨e, he, hdatum⟩
  rw [Expression.ofText?, String.toList_ofList] at he
  rcases Option.bind_eq_some_iff.mp he with ⟨us, hus, hread⟩
  rw [Expression.ofTokens?_eq_some] at hread
  refine ⟨e, fun rest ts hrest hts => ?_, hdatum⟩
  rw [Token.all?_append word rest (breaks_of_closed rest hrest), hus, hts, hread]
  rfl

theorem exists_forall₂_readFrom (words : List (List Char)) (ds : List Datum)
    (h : List.Forall₂ Reads words ds) :
    ∃ es, List.Forall₂ Expression.ReadFrom es words ∧ Expression.itemData es = .ok ds := by
  induction h with
  | nil => exact ⟨[], .nil, rfl⟩
  | cons hfirst _ ih =>
      rcases exists_readFrom_of_reads _ _ hfirst with ⟨e, he, hdatum⟩
      rcases ih with ⟨es, hes, hitems⟩
      refine ⟨e :: es, .cons he hes, ?_⟩
      rw [Expression.itemData, hdatum, hitems]
      rfl

/-- The text of an expression reads as what it denotes. -/
theorem reads_of_readFrom (e : Expression) (d : Datum) (he : e.ReadFrom cs)
    (hdatum : e.datum = .ok d) : Reads cs d := by
  have htokens := he [] [] closed_nil Token.all?_nil
  rw [List.append_nil, List.append_nil] at htokens
  refine (parse_eq_ok_iff _ d).mpr ⟨e, ?_, hdatum⟩
  rw [Expression.ofText?, String.toList_ofList, htokens, Option.bind_some,
    Expression.ofTokens?_eq_some]

variable {words more : List (List Char)} {ds es : List Datum} {last : List Char} {d : Datum}

/-- A list with a dot reads as what dot notation means. -/
theorem reads_dotBracketed (first : Datum) (rest : List Datum)
    (hwords : List.Forall₂ Reads words (first :: rest)) (hlast : Reads last d) :
    Reads (dotBracketed words last) (dot first rest d) := by
  rcases exists_forall₂_readFrom words _ hwords with ⟨items, hitems, hdata⟩
  rcases exists_readFrom_of_reads last d hlast with ⟨tail, htail, hvalue⟩
  refine reads_of_readFrom _ _ (Expression.readFrom_dotted items tail words last hitems htail) ?_
  rw [Expression.datum, hdata, hvalue]
  rfl

/-- A list behind a dot is the rest of the items. -/
theorem interchangeable_list (hwords : List.Forall₂ Reads words ds)
    (hmore : List.Forall₂ Reads more es) (hne : words ≠ []) :
    Interchangeable (dotBracketed words (bracketed more)) (bracketed (words ++ more)) := by
  rcases exists_forall₂_readFrom words ds hwords with ⟨items, hitems, -⟩
  rcases exists_forall₂_readFrom more es hmore with ⟨items', hitems', -⟩
  refine interchangeable_of_datum _ _ (enclosed_dotBracketed _ _) (enclosed_bracketed _)
    (Expression.readFrom_dotted items _ words _ hitems
      (Expression.readFrom_list items' more hitems'))
    (Expression.readFrom_list _ _ (List.rel_append hitems hitems'))
    (Expression.datum_dotted_list items items' ?_)
  rintro rfl
  cases hitems
  exact hne rfl

/-- A dotted list behind a dot is the rest of the items and the tail. -/
theorem interchangeable_dotted (hwords : List.Forall₂ Reads words ds)
    (hmore : List.Forall₂ Reads more es) (hlast : Reads last d) (hne : words ≠ [])
    (hne' : more ≠ []) : Interchangeable (dotBracketed words (dotBracketed more last))
      (dotBracketed (words ++ more) last) := by
  rcases exists_forall₂_readFrom words ds hwords with ⟨items, hitems, -⟩
  rcases exists_forall₂_readFrom more es hmore with ⟨items', hitems', -⟩
  rcases exists_readFrom_of_reads last d hlast with ⟨tail, htail, -⟩
  refine interchangeable_of_datum _ _ (enclosed_dotBracketed _ _) (enclosed_dotBracketed _ _)
    (Expression.readFrom_dotted items _ words _ hitems
      (Expression.readFrom_dotted items' tail more last hitems' htail))
    (Expression.readFrom_dotted _ tail _ last (List.rel_append hitems hitems') htail)
    (Expression.datum_dotted_dotted items items' tail ?_ ?_)
  · rintro rfl
    cases hitems
    exact hne rfl
  · rintro rfl
    cases hitems'
    exact hne' rfl

/-- A chain of lists is one list with one dot. -/
theorem interchangeable_chained (segments : List (List (List Char))) (dss : List (List Datum))
    (hwords : List.Forall₂ Reads words ds)
    (hsegments : List.Forall₂ (List.Forall₂ Reads) segments dss) (hlast : Reads last d)
    (hne : words ≠ []) (hnone : [] ∉ segments) :
    Interchangeable (chained (words :: segments) last)
      (dotBracketed (words ++ segments.flatten) last) := by
  induction hsegments generalizing words ds with
  | nil =>
      rw [List.flatten_nil, List.append_nil]
      exact .refl _
  | @cons next es more dss hnext hmore ih =>
      rw [List.mem_cons, not_or] at hnone
      have hnext_ne : next ≠ [] := fun h => hnone.1 h.symm
      -- From the innermost dot outwards, each is taken away inside the next.
      have hinner := (ih hnext hnext_ne hnone.2).behind_dot words
      refine hinner.trans ?_
      refine interchangeable_dotted hwords (List.rel_append hnext (List.rel_flatten hmore)) hlast
        hne ?_
      intro h
      exact hnext_ne (List.append_eq_nil_iff.mp h).1

/-- Dots before lists change nothing. Behind a dot a list may be taken out of
    its brackets, with a tail of its own or without, wherever it stands in a
    text. A chain of lists is therefore one list, which is a flat one if the
    chain ends in nil, and has the number behind its dot if it ends in one. -/
theorem interchangeable_splice (words more : List (List Char)) (ds es : List Datum)
    (hwords : List.Forall₂ Reads words ds) (hmore : List.Forall₂ Reads more es)
    (hne : words ≠ []) :
    Interchangeable (dotBracketed words (bracketed more)) (bracketed (words ++ more))
      ∧ (∀ last d, Reads last d → more ≠ [] →
        Interchangeable (dotBracketed words (dotBracketed more last))
          (dotBracketed (words ++ more) last))
      ∧ ∀ segments dss last d, List.Forall₂ (List.Forall₂ Reads) segments dss →
        [] ∉ segments → Reads last d →
          Interchangeable (chained (words :: segments) last)
            (dotBracketed (words ++ segments.flatten) last)
          ∧ (d = .nil →
            Reads (chained (words :: segments) last) (.sequence .round (ds ++ dss.flatten)))
          ∧ (d.IsNumber → ∃ first rest, ds ++ dss.flatten = first :: rest
            ∧ Reads (chained (words :: segments) last) (.dotted first rest d)) := by
  refine ⟨interchangeable_list hwords hmore hne,
    fun last d hlast hne' => interchangeable_dotted hwords hmore hlast hne hne', ?_⟩
  intro segments dss last d hsegments hnone hlast
  have hchain := interchangeable_chained segments dss hwords hsegments hlast hne hnone
  have hflat := List.rel_append hwords (List.rel_flatten hsegments)
  cases hwords with
  | nil => exact absurd rfl hne
  | @cons word first words rest hword hrest =>
      have hread := (hchain.reads_iff _).mpr
        (reads_dotBracketed first (rest ++ dss.flatten) hflat hlast)
      refine ⟨hchain, ?_, fun hnumber => ⟨first, rest ++ dss.flatten, rfl, ?_⟩⟩
      · rintro rfl
        exact hread
      · cases d with
        | int _ | float _ => exact hread
        | nil | bool _ | text _ | sequence _ _ | dotted _ _ _ | table _ => exact hnumber.elim

/-- Three lists in a chain that ends in an integer with a point, and two that
    end in no items. -/
theorem interchangeable_splice_integers :
    Reads "(1 . (nil 2 . (-3 . 4.)))".toList (.dotted (.int 1) [.nil, .int 2, .int (-3)] (.int 4))
      ∧ Reads "(1 . (nil 2 . ()))".toList (.sequence .round [.int 1, .nil, .int 2])
      ∧ Interchangeable "(1 . (nil 2))".toList "(1 nil 2)".toList
      ∧ Interchangeable "(1 . (nil 2 . 4.))".toList "(1 nil 2 . 4.)".toList := by
  let words : List (List Char) := [['1']]
  let more : List (List Char) := [['n', 'i', 'l'], ['2']]
  have hlongText : "(1 . (nil 2 . (-3 . 4.)))".toList
      = chained [words, more, [['-', '3']]] ['4', '.'] := by decide +kernel
  have hflatText : "(1 . (nil 2 . ()))".toList = chained [words, more] ['(', ')'] := by
    decide +kernel
  have hlistText : "(1 . (nil 2))".toList = dotBracketed words (bracketed more)
      ∧ "(1 nil 2)".toList = bracketed (words ++ more) := by decide +kernel
  have hdottedText : "(1 . (nil 2 . 4.))".toList = dotBracketed words (dotBracketed more ['4', '.'])
      ∧ "(1 nil 2 . 4.)".toList = dotBracketed (words ++ more) ['4', '.'] := by decide +kernel
  rw [hlongText, hflatText, hlistText.1, hlistText.2, hdottedText.1, hdottedText.2]
  have hatom (a : Atom) (h : a.WellFormed) (d : Datum) (hd : a.datum = .ok d) : Reads a.text d :=
    reads_of_readFrom _ _ (Expression.readFrom_atom a h) ((orFault_eq_ok_iff _ d).mpr hd)
  have hone := hatom (.int .none ['1'] false) (Decimal.isNumeral_toDigits 1) _ rfl
  have htwo := hatom (.int .none ['2'] false) (Decimal.isNumeral_toDigits 2) _ rfl
  have hthree := hatom (.int .minus ['3'] false) (Decimal.isNumeral_toDigits 3) _ rfl
  have hfour := hatom (.int .none ['4'] true) (Decimal.isNumeral_toDigits 4) _ rfl
  have hnil := hatom .nil trivial _ rfl
  have hempty : Reads ['(', ')'] .nil :=
    reads_of_readFrom _ _ (Expression.readFrom_list [] [] .nil) rfl
  have hwords : List.Forall₂ Reads words [.int 1] := .cons hone .nil
  have hmore : List.Forall₂ Reads more [.nil, .int 2] := .cons hnil (.cons htwo .nil)
  have hne : more ≠ [] := List.cons_ne_nil _ _
  rcases interchangeable_splice words more _ _ hwords hmore (List.cons_ne_nil _ _) with
    ⟨hlist, hdotted, hchain⟩
  rcases hchain [more, [['-', '3']]] _ _ _ (.cons hmore (.cons (.cons hthree .nil) .nil))
    (by decide) hfour with ⟨-, -, hnumber⟩
  rcases hnumber trivial with ⟨first, rest, hitems, hread⟩
  cases hitems
  rcases hchain [more] _ _ _ (.cons hmore .nil) (by decide) hempty with ⟨-, hflat, -⟩
  exact ⟨hread, hflat rfl, hlist, hdotted _ _ hfour hne⟩

end Datum

end PicoTime
