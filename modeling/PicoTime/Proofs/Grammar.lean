import PicoTime.Datum.Parse
import PicoTime.Expression.Spelling
import PicoTime.Proofs.Cutting
import PicoTime.Proofs.Lexeme

/-!
# The Grammar of Written Times

What a text has to be to denote a time, said without the reader: it is cut
into lexemes from left to right, with blanks between them, and a form is
derived from the lexemes,

    form: list | atom
    list: "(" form* tail? ")"
    tail: "." form

The derivation tree then has a value, unless something is in the way of it:
some list in it has a tail but no item before it, or some integer in it has
more digits than are read. What is in the way is put in order, from left to
right and from the inside out, and the first of it is what the text is refused
for. Trees correspond to expressions one to one as far as lexemes correspond
to tokens, which gives both directions at once: what is read has a derivation,
and what has a derivation is read or refused by it. The grammar is not
ambiguous because expressions are not.

## Main definitions

* `Cut`: The lexemes of a text.
* `ParseTree`, `ParseTree.Yields`: Derivations of a form.
* `ParseTree.Headless`: A list with a tail but no item.
* `ParseTree.value?`: What a derivation denotes.
* `ParseTree.obstacles`: What is in the way of the value, in order.
* `ParseTree.Of`: A derivation of a whole text.

## Theorems

* `Token.cut_of_all?`, `Token.exists_all?_of_cut`: Cutting a text into lexemes
  is cutting it into tokens.
* `Expression.of_iff`: The derivation of a text is that of the expression it
  spells.
* `ParseTree.noItemBeforeDot_mem_iff`, `ParseTree.numeralTooLong_mem_iff`: What
  is in the way, and where.
* `Expression.head?_obstacles_tree`: Evaluating stops at the first of it.
* `Datum.parse_eq_iff`: Reading accepts the grammar, up to integers that are
  too long.
* `Datum.parse_stops_at_long_numeral`: A text of the grammar that is not read.
-/

namespace PicoTime

/-- The lexemes of a text, cut from left to right. Blanks are passed over, and
    at every other place the first kind of token that matches is taken. -/
inductive Cut : List Char → List Lexeme → Prop where
  | done : Cut [] []
  | blank {c : Char} {cs : List Char} {lexemes : List Lexeme} :
      isBlank c → Cut cs lexemes → Cut (c :: cs) lexemes
  | lexeme {kind : Terminal} {text rest : List Char} {lexemes : List Lexeme} :
      Terminal.first? (text ++ rest) = some (kind, rest) → Cut rest lexemes →
      Cut (text ++ rest) (⟨kind, text⟩ :: lexemes)

/-- The kinds of tokens that are forms on their own. -/
def Terminal.IsAtom : Terminal → Prop
  | .nil | .special | .float | .int => True
  | _ => False

/-- A derivation of a form. -/
inductive ParseTree where
  | atom (lexeme : Lexeme)
  | list (forms : List ParseTree)
  | dotted (forms : List ParseTree) (tail : ParseTree)

namespace ParseTree

mutual

/-- The lexemes from which a form is derived. -/
inductive Yields : ParseTree → List Lexeme → Prop where
  | atom {lexeme : Lexeme} : lexeme.terminal.IsAtom → Yields (.atom lexeme) [lexeme]
  | list {forms : List ParseTree} {opening closing : Lexeme} {lexemes : List Lexeme} :
      opening.terminal = .opening → YieldsAll forms lexemes → closing.terminal = .closing →
      Yields (.list forms) (opening :: (lexemes ++ [closing]))
  | dotted {forms : List ParseTree} {tail : ParseTree} {opening dot closing : Lexeme}
      {before behind : List Lexeme} :
      opening.terminal = .opening → YieldsAll forms before → dot.terminal = .dot →
      Yields tail behind → closing.terminal = .closing →
      Yields (.dotted forms tail) (opening :: (before ++ dot :: (behind ++ [closing])))

/-- The lexemes from which some forms are derived, one after another. -/
inductive YieldsAll : List ParseTree → List Lexeme → Prop where
  | nil : YieldsAll [] []
  | cons {form : ParseTree} {forms : List ParseTree} {first rest : List Lexeme} :
      Yields form first → YieldsAll forms rest → YieldsAll (form :: forms) (first ++ rest)

end

/-- Some list has a tail but no item before it. -/
inductive Headless : ParseTree → Prop where
  | here {tail : ParseTree} : Headless (.dotted [] tail)
  | form {form : ParseTree} {forms : List ParseTree} :
      form ∈ forms → Headless form → Headless (.list forms)
  | item {form : ParseTree} {forms : List ParseTree} {tail : ParseTree} :
      form ∈ forms → Headless form → Headless (.dotted forms tail)
  | tail {forms : List ParseTree} {tail : ParseTree} :
      Headless tail → Headless (.dotted forms tail)

mutual

/-- What a derivation denotes: the value of a lexeme, nil for no forms, else
    the forms in a list that goes on with its tail. -/
def value? : ParseTree → Option Datum
  | .atom lexeme => some lexeme.value
  | .list forms => (values? forms).map Datum.ofItems
  | .dotted forms tail =>
    match values? forms, tail.value? with
    | some (first :: rest), some d => some (.dot first rest d)
    | _, _ => none

/-- What some derivations denote. -/
def values? : List ParseTree → Option (List Datum)
  | [] => some []
  | form :: forms =>
    match form.value?, values? forms with
    | some d, some ds => some (d :: ds)
    | _, _ => none

end

mutual

/-- What is in the way of a derivation's value, from left to right and from
    the inside out: integers with more digits than are read, and dots without
    an item before them. -/
def obstacles : ParseTree → List Fault
  | .atom lexeme => lexeme.obstacles
  | .list forms => allObstacles forms
  | .dotted forms tail =>
    allObstacles forms ++ tail.obstacles ++
      if forms.isEmpty then [.time (.invalid .noItemBeforeDot)] else []

/-- What is in the way of the values of some derivations. -/
def allObstacles : List ParseTree → List Fault
  | [] => []
  | form :: forms => form.obstacles ++ allObstacles forms

end

/-- A derivation of a whole text. -/
def Of (tree : ParseTree) (text : String) : Prop :=
  ∃ lexemes, Cut text.toList lexemes ∧ tree.Yields lexemes

end ParseTree

/-! ## Lexemes and tokens -/

namespace Token

/-- The first token of a text is its first lexeme. -/
theorem terminal_of_first? (cs rest : List Char) (t : Token) (h : first? cs = some (t, rest)) :
    Terminal.first? cs = some (t.terminal, rest) := by
  rw [← terminal_first?, h]
  rfl

/-- The first lexeme of a text is its first token. -/
theorem exists_of_terminal_first? (text rest : List Char) (kind : Terminal)
    (h : Terminal.first? (text ++ rest) = some (kind, rest)) :
    ∃ t : Token, first? (text ++ rest) = some (t, rest) ∧ t.lexeme = ⟨kind, text⟩ := by
  rw [← terminal_first?] at h
  rcases Option.map_eq_some_iff.mp h with ⟨⟨t, more⟩, ht, he⟩
  rcases Prod.mk.inj he with ⟨rfl, rfl⟩
  have htext := List.append_cancel_right (eq_of_first? ht)
  refine ⟨t, ht, ?_⟩
  rw [lexeme, ← htext]

/-- The tokens of a text are its lexemes, and they are well formed. -/
theorem cut_of_all? (cs : List Char) (ts : List Token) (h : all? cs = some ts) :
    Cut cs (ts.map lexeme) ∧ ∀ t ∈ ts, t.WellFormed := by
  -- What follows a blank or a token is shorter.
  induction hlength : cs.length using Nat.strong_induction_on generalizing cs ts with
  | _ n ih =>
    cases cs with
    | nil =>
        rw [all?_nil, Option.some.injEq] at h
        rw [← h]
        exact ⟨.done, fun t ht => absurd ht List.not_mem_nil⟩
    | cons c cs =>
        rw [List.length_cons] at hlength
        by_cases hblank : isBlank c
        · rw [all?_blank c cs hblank] at h
          rcases ih cs.length (by omega) cs ts h rfl with ⟨hcut, hwell⟩
          exact ⟨.blank hblank hcut, hwell⟩
        rcases hfirst : first? (c :: cs) with _ | ⟨t, rest⟩
        · rw [all?_eq_none c cs (Bool.eq_false_iff.mpr hblank) hfirst] at h
          exact absurd h (by simp only [reduceCtorEq, not_false_eq_true])
        · rw [all?_of_first? _ rest t hfirst] at h
          rcases Option.map_eq_some_iff.mp h with ⟨more, hmore, rfl⟩
          have hshorter := length_lt_of_first? hfirst
          rw [List.length_cons] at hshorter
          rcases ih rest.length (by omega) rest more hmore rfl with ⟨hcut, hwell⟩
          have hkind := terminal_of_first? _ rest t hfirst
          have htext := eq_of_first? hfirst
          refine ⟨?_, fun u hu => ?_⟩
          · rw [htext] at hkind ⊢
            exact .lexeme hkind hcut
          · rcases List.mem_cons.mp hu with rfl | hu
            · exact wellFormed_of_first? _ rest u hfirst
            · exact hwell u hu

/-- The lexemes of a text are its tokens. -/
theorem exists_all?_of_cut (cs : List Char) (lexemes : List Lexeme) (h : Cut cs lexemes) :
    ∃ ts, all? cs = some ts ∧ ts.map lexeme = lexemes := by
  induction h with
  | done => exact ⟨[], all?_nil, rfl⟩
  | @blank c cs lexemes hblank _ ih =>
      rw [all?_blank c cs hblank]
      exact ih
  | @lexeme kind text rest lexemes hkind _ ih =>
      rcases ih with ⟨ts, hts, rfl⟩
      rcases exists_of_terminal_first? text rest kind hkind with ⟨t, hfirst, ht⟩
      refine ⟨t :: ts, ?_, ?_⟩
      · rw [all?_of_first? _ rest t hfirst, hts, Option.map_some]
      · rw [List.map_cons, ht]

end Token

theorem Atom.isAtom_terminal (a : Atom) : a.terminal.IsAtom := by
  cases a <;> trivial

namespace Token

theorem exists_atom_of_terminal (t : Token) (h : t.terminal.IsAtom) : ∃ a, t = .atom a := by
  cases t with
  | atom a => exact ⟨a, rfl⟩
  | dot | opening | closing => exact h.elim

/-- Only an atom is not known by its kind. -/
theorem eq_of_terminal (t u : Token) (hu : ¬ u.terminal.IsAtom) (h : t.terminal = u.terminal) :
    t = u := by
  cases u with
  | atom b => exact absurd b.isAtom_terminal hu
  | dot | opening | closing =>
      cases t with
      | atom a => exact absurd (h ▸ a.isAtom_terminal) hu
      | dot | opening | closing => cases h <;> rfl

end Token

/-! ## Derivations and expressions -/

namespace Expression

mutual

/-- The derivation of an expression. -/
def tree : Expression → ParseTree
  | .atom a => .atom (Token.atom a).lexeme
  | .list items => .list (trees items)
  | .dotted items tail => .dotted (trees items) tail.tree

/-- The derivations of some expressions. -/
def trees : List Expression → List ParseTree
  | [] => []
  | e :: es => e.tree :: trees es

end

mutual

/-- An expression is derived from its tokens. -/
theorem yields_tree (e : Expression) : e.tree.Yields (e.tokens.map Token.lexeme) := by
  match e with
  | .atom a => exact .atom a.isAtom_terminal
  | .list items =>
      rw [tree, tokens, List.map_cons, List.map_append]
      exact .list rfl (yieldsAll_trees items) rfl
  | .dotted items tail =>
      rw [tree, tokens, List.map_cons, List.map_append, List.map_cons, List.map_append]
      exact .dotted rfl (yieldsAll_trees items) rfl (yields_tree tail) rfl

theorem yieldsAll_trees (es : List Expression) :
    ParseTree.YieldsAll (trees es) ((itemTokens es).map Token.lexeme) := by
  match es with
  | [] => exact .nil
  | e :: es =>
      rw [trees, itemTokens, List.map_append]
      exact .cons (yields_tree e) (yieldsAll_trees es)

end

mutual

/-- Whatever is derived from the lexemes of some tokens is the derivation of
    an expression that the tokens spell. -/
theorem exists_tree_eq (form : ParseTree) (lexemes : List Lexeme) (h : form.Yields lexemes)
    (ts : List Token) (hts : ts.map Token.lexeme = lexemes) :
    ∃ e : Expression, e.tree = form ∧ ts = e.tokens := by
  match h with
  | .atom hatom =>
      rcases List.map_eq_singleton_iff.mp hts with ⟨t, rfl, rfl⟩
      rcases Token.exists_atom_of_terminal t hatom with ⟨a, rfl⟩
      exact ⟨.atom a, rfl, rfl⟩
  -- The tokens are split where the lexemes are, and the brackets and the dot
  -- are known by their kinds.
  | .list hopening hforms hclosing =>
      rcases List.map_eq_cons_iff.mp hts with ⟨t, us, rfl, rfl, hus⟩
      rcases List.map_eq_append_iff.mp hus with ⟨vs, ws, rfl, hvs, hws⟩
      rcases List.map_eq_singleton_iff.mp hws with ⟨u, rfl, rfl⟩
      rcases exists_trees_eq _ _ hforms vs hvs with ⟨es, rfl, rfl⟩
      rw [Token.eq_of_terminal t .opening id hopening, Token.eq_of_terminal u .closing id hclosing]
      exact ⟨.list es, rfl, rfl⟩
  | .dotted hopening hforms hdot htail hclosing =>
      rcases List.map_eq_cons_iff.mp hts with ⟨t, us, rfl, rfl, hus⟩
      rcases List.map_eq_append_iff.mp hus with ⟨vs, ws, rfl, hvs, hws⟩
      rcases List.map_eq_cons_iff.mp hws with ⟨d, xs, rfl, rfl, hxs⟩
      rcases List.map_eq_append_iff.mp hxs with ⟨ys, zs, rfl, hys, hzs⟩
      rcases List.map_eq_singleton_iff.mp hzs with ⟨u, rfl, rfl⟩
      rcases exists_trees_eq _ _ hforms vs hvs with ⟨es, rfl, rfl⟩
      rcases exists_tree_eq _ _ htail ys hys with ⟨e, rfl, rfl⟩
      rw [Token.eq_of_terminal t .opening id hopening, Token.eq_of_terminal d .dot id hdot,
        Token.eq_of_terminal u .closing id hclosing]
      exact ⟨.dotted es e, rfl, rfl⟩

theorem exists_trees_eq (forms : List ParseTree) (lexemes : List Lexeme)
    (h : ParseTree.YieldsAll forms lexemes) (ts : List Token)
    (hts : ts.map Token.lexeme = lexemes) :
    ∃ es : List Expression, trees es = forms ∧ ts = itemTokens es := by
  match h with
  | .nil =>
      rw [List.map_eq_nil_iff] at hts
      exact ⟨[], rfl, hts⟩
  | .cons hform hforms =>
      rcases List.map_eq_append_iff.mp hts with ⟨us, vs, rfl, hus, hvs⟩
      rcases exists_tree_eq _ _ hform us hus with ⟨e, rfl, rfl⟩
      rcases exists_trees_eq _ _ hforms vs hvs with ⟨es, rfl, rfl⟩
      exact ⟨e :: es, rfl, rfl⟩

end

/-- Items that are evaluated have as many values. -/
theorem isEmpty_of_itemData (es : List Expression) (ds : List Datum)
    (h : itemData es = .ok ds) : ds.isEmpty = es.isEmpty := by
  cases es with
  | nil =>
      cases h
      rfl
  | cons e es =>
      rcases (bind_eq_ok_iff _ _ _).mp h with ⟨d, -, h⟩
      rcases (bind_eq_ok_iff _ _ _).mp h with ⟨rest, -, h⟩
      cases h
      rfl

theorem wellFormed_items {items : List Expression} {behind : List Token}
    (h : ∀ t ∈ Token.opening :: (itemTokens items ++ behind), t.WellFormed) :
    ∀ t ∈ itemTokens items, t.WellFormed :=
  fun t ht => h t (List.mem_cons_of_mem _ (List.mem_append_left _ ht))

theorem wellFormed_tail {items : List Expression} {tail : Expression}
    (h : ∀ t ∈ (dotted items tail).tokens, t.WellFormed) : ∀ t ∈ tail.tokens, t.WellFormed :=
  fun t ht => h t (List.mem_cons_of_mem _ (List.mem_append_right _
    (List.mem_cons_of_mem _ (List.mem_append_left _ ht))))

mutual

/-- What an expression is evaluated to is what its derivation denotes. -/
theorem value?_tree (e : Expression) (h : ∀ t ∈ e.tokens, t.WellFormed) (d : Datum)
    (hd : e.datum = .ok d) : e.tree.value? = some d := by
  match e with
  | .atom a =>
      rw [datum, orFault_eq_ok_iff] at hd
      rw [tree, ParseTree.value?, Atom.value_lexeme a (h (.atom a) List.mem_cons_self),
        a.value_of_datum d hd]
  | .list items =>
      rcases (bind_eq_ok_iff _ _ _).mp hd with ⟨ds, hds, hd⟩
      cases hd
      rw [tree, ParseTree.value?, values?_trees items (wellFormed_items h) ds hds, Option.map_some]
  | .dotted items tail =>
      rcases (bind_eq_ok_iff _ _ _).mp hd with ⟨ds, hds, hd⟩
      rcases (bind_eq_ok_iff _ _ _).mp hd with ⟨last, hlast, hd⟩
      rw [tree, ParseTree.value?, values?_trees items (wellFormed_items h) ds hds,
        value?_tree tail (wellFormed_tail h) last hlast]
      cases ds with
      | nil => cases hd
      | cons first rest =>
          cases hd
          rfl

theorem values?_trees (es : List Expression) (h : ∀ t ∈ itemTokens es, t.WellFormed)
    (ds : List Datum) (hds : itemData es = .ok ds) : ParseTree.values? (trees es) = some ds := by
  match es with
  | [] =>
      cases hds
      rfl
  | e :: es =>
      rcases (bind_eq_ok_iff _ _ _).mp hds with ⟨d, hd, hds⟩
      rcases (bind_eq_ok_iff _ _ _).mp hds with ⟨rest, hrest, hds⟩
      cases hds
      rw [trees, ParseTree.values?,
        value?_tree e (fun t ht => h t (List.mem_append_left _ ht)) d hd,
        values?_trees es (fun t ht => h t (List.mem_append_right _ ht)) rest hrest]

end

mutual

/-- Evaluating an expression stops at the first thing that is in the way. -/
theorem head?_obstacles_tree (e : Expression) (h : ∀ t ∈ e.tokens, t.WellFormed) :
    e.tree.obstacles.head? = stop? e.datum := by
  match e with
  | .atom a => exact a.head?_obstacles_lexeme (h (.atom a) List.mem_cons_self)
  | .list items =>
      rw [tree, ParseTree.obstacles, head?_allObstacles_trees items (wellFormed_items h), datum]
      rcases itemData items with fault | ds <;> rfl
  | .dotted items tail =>
      rw [tree, ParseTree.obstacles, List.head?_append, List.head?_append,
        head?_allObstacles_trees items (wellFormed_items h),
        head?_obstacles_tree tail (wellFormed_tail h), datum]
      -- The items come first, then the tail, and the missing item last.
      rcases hds : itemData items with fault | ds
      · rfl
      rcases tail.datum with fault | last
      · rfl
      have hempty := isEmpty_of_itemData items ds hds
      cases items <;> cases ds <;> first | rfl | cases hempty

theorem head?_allObstacles_trees (es : List Expression)
    (h : ∀ t ∈ itemTokens es, t.WellFormed) :
    (ParseTree.allObstacles (trees es)).head? = stop? (itemData es) := by
  match es with
  | [] => rfl
  | e :: es =>
      rw [trees, ParseTree.allObstacles, List.head?_append,
        head?_obstacles_tree e fun t ht => h t (List.mem_append_left _ ht),
        head?_allObstacles_trees es fun t ht => h t (List.mem_append_right _ ht), itemData]
      rcases e.datum with fault | d
      · rfl
      · rcases itemData es with fault | ds <;> rfl

end

/-- An expression is evaluated to what its derivation denotes, if nothing is in
    the way. -/
theorem datum_eq_ok_iff (e : Expression) (h : ∀ t ∈ e.tokens, t.WellFormed) (d : Datum) :
    e.datum = .ok d ↔ e.tree.obstacles = [] ∧ e.tree.value? = some d := by
  rw [← List.head?_eq_none_iff, head?_obstacles_tree e h, stop?_eq_none_iff]
  constructor
  · exact fun hd => ⟨⟨d, hd⟩, value?_tree e h d hd⟩
  · rintro ⟨⟨d', hd'⟩, hvalue⟩
    rw [value?_tree e h d' hd', Option.some.injEq] at hvalue
    rw [hd', hvalue]

/-- A derivation of a text is that of the expression the text spells. -/
theorem of_iff (form : ParseTree) (text : String) :
    form.Of text ↔ ∃ e, ofText? text = some e ∧ e.tree = form := by
  constructor
  · rintro ⟨lexemes, hcut, hyields⟩
    rcases Token.exists_all?_of_cut _ lexemes hcut with ⟨ts, hts, hlexemes⟩
    rcases exists_tree_eq form lexemes hyields ts hlexemes with ⟨e, htree, htokens⟩
    refine ⟨e, ?_, htree⟩
    rw [ofText?, hts, Option.bind_some, ofTokens?_eq_some]
    exact htokens
  · rintro ⟨e, he, rfl⟩
    rcases Option.bind_eq_some_iff.mp he with ⟨ts, hts, hread⟩
    rw [ofTokens?_eq_some] at hread
    refine ⟨_, (Token.cut_of_all? _ ts hts).1, ?_⟩
    rw [hread]
    exact yields_tree e

end Expression

/-! ## What is in the way -/

namespace ParseTree

theorem not_headless_atom (lexeme : Lexeme) : ¬ (atom lexeme).Headless :=
  nofun

mutual

/-- A dot without an item before it is in the way exactly if a list in the
    derivation is headless. -/
theorem noItemBeforeDot_mem_iff (form : ParseTree) :
    .time (.invalid .noItemBeforeDot) ∈ form.obstacles ↔ form.Headless := by
  match form with
  | .atom lexeme =>
      refine iff_of_false (fun h => ?_) (not_headless_atom lexeme)
      rw [obstacles, Lexeme.obstacles] at h
      split_ifs at h
      · cases List.mem_singleton.mp h
      · cases h
  | .list forms =>
      rw [obstacles, noItemBeforeDot_mem_all_iff forms]
      refine ⟨fun ⟨form, hmem, hform⟩ => .form hmem hform, fun h => ?_⟩
      cases h with
      | form hmem hform => exact ⟨_, hmem, hform⟩
  | .dotted forms tail =>
      rw [obstacles, List.mem_append, List.mem_append, noItemBeforeDot_mem_all_iff forms,
        noItemBeforeDot_mem_iff tail]
      constructor
      · rintro ((⟨form, hmem, hform⟩ | htail) | hhere)
        · exact .item hmem hform
        · exact .tail htail
        · cases forms with
          | nil => exact .here
          | cons form forms => cases hhere
      · intro h
        cases h with
        | here => exact Or.inr List.mem_cons_self
        | item hmem hform => exact Or.inl (Or.inl ⟨_, hmem, hform⟩)
        | tail htail => exact Or.inl (Or.inr htail)

theorem noItemBeforeDot_mem_all_iff (forms : List ParseTree) :
    .time (.invalid .noItemBeforeDot) ∈ allObstacles forms ↔ ∃ form ∈ forms, form.Headless := by
  match forms with
  | [] => exact iff_of_false List.not_mem_nil fun ⟨_, hmem, _⟩ => List.not_mem_nil hmem
  | form :: forms =>
      rw [allObstacles, List.mem_append, noItemBeforeDot_mem_iff form,
        noItemBeforeDot_mem_all_iff forms]
      simp only [List.mem_cons, or_and_right, exists_or, exists_eq_left]

end

/-- Only integers can be too long. -/
theorem not_isTooLong {lexeme : Lexeme} {kind : Terminal} (h : lexeme.terminal = kind)
    (hkind : kind ≠ .int) : ¬ lexeme.IsTooLong :=
  fun hlong => hkind (h.symm.trans hlong.1)

mutual

/-- An integer with so many digits is in the way exactly if it is one of the
    lexemes and so many are too many. -/
theorem numeralTooLong_mem_iff (form : ParseTree) (lexemes : List Lexeme)
    (h : form.Yields lexemes) (n : Nat) :
    .argument (.numeralTooLong n) ∈ form.obstacles
      ↔ ∃ lexeme ∈ lexemes, lexeme.IsTooLong ∧ Lexeme.digitCount lexeme.text = n := by
  match h with
  | @Yields.atom lexeme _ =>
      rw [obstacles, Lexeme.obstacles]
      simp only [List.mem_singleton, exists_eq_left]
      split_ifs with hlong
      · rw [List.mem_singleton, Fault.argument.injEq, ArgumentError.numeralTooLong.injEq]
        exact ⟨fun heq => ⟨hlong, heq.symm⟩, fun heq => heq.2.symm⟩
      · exact iff_of_false List.not_mem_nil fun heq => hlong heq.1
  -- The brackets and the dot are never too long.
  | .list hopening hforms hclosing =>
      rw [obstacles, numeralTooLong_mem_all_iff _ _ hforms n]
      simp only [List.mem_cons, List.mem_append, List.not_mem_nil, or_false, or_and_right,
        exists_or, exists_eq_left, not_isTooLong hopening nofun, not_isTooLong hclosing nofun,
        false_and, false_or]
  | .dotted hopening hforms hdot htail hclosing =>
      have hbare (forms : List ParseTree) : Fault.argument (.numeralTooLong n)
          ∉ (if forms.isEmpty then [.time (.invalid .noItemBeforeDot)] else [] : List Fault) := by
        cases forms <;> simp
      rw [obstacles, List.mem_append, List.mem_append, numeralTooLong_mem_all_iff _ _ hforms n,
        numeralTooLong_mem_iff _ _ htail n, or_iff_left (hbare _)]
      simp only [List.mem_cons, List.mem_append, List.not_mem_nil, or_false, or_and_right,
        exists_or, exists_eq_left, not_isTooLong hopening nofun, not_isTooLong hdot nofun,
        not_isTooLong hclosing nofun, false_and, false_or]

theorem numeralTooLong_mem_all_iff (forms : List ParseTree) (lexemes : List Lexeme)
    (h : YieldsAll forms lexemes) (n : Nat) :
    .argument (.numeralTooLong n) ∈ allObstacles forms
      ↔ ∃ lexeme ∈ lexemes, lexeme.IsTooLong ∧ Lexeme.digitCount lexeme.text = n := by
  match h with
  | .nil => exact iff_of_false List.not_mem_nil fun ⟨_, hmem, _⟩ => List.not_mem_nil hmem
  | .cons hform hforms =>
      rw [allObstacles, List.mem_append, numeralTooLong_mem_iff _ _ hform n,
        numeralTooLong_mem_all_iff _ _ hforms n]
      simp only [List.mem_append, or_and_right, exists_or]

end

mutual

/-- Nothing else is in the way of a value. -/
theorem eq_of_mem_obstacles (form : ParseTree) (fault : Fault) (h : fault ∈ form.obstacles) :
    fault = .time (.invalid .noItemBeforeDot) ∨ ∃ n, fault = .argument (.numeralTooLong n) := by
  match form with
  | .atom lexeme =>
      rw [obstacles, Lexeme.obstacles] at h
      split_ifs at h
      · exact Or.inr ⟨_, List.mem_singleton.mp h⟩
      · cases h
  | .list forms => exact eq_of_mem_allObstacles forms fault h
  | .dotted forms tail =>
      rw [obstacles, List.mem_append, List.mem_append] at h
      rcases h with (hforms | htail) | hhere
      · exact eq_of_mem_allObstacles forms fault hforms
      · exact eq_of_mem_obstacles tail fault htail
      · split_ifs at hhere
        · exact Or.inl (List.mem_singleton.mp hhere)
        · cases hhere

theorem eq_of_mem_allObstacles (forms : List ParseTree) (fault : Fault)
    (h : fault ∈ allObstacles forms) :
    fault = .time (.invalid .noItemBeforeDot) ∨ ∃ n, fault = .argument (.numeralTooLong n) := by
  match forms with
  | [] => cases h
  | form :: forms =>
      rcases List.mem_append.mp h with hform | hforms
      · exact eq_of_mem_obstacles form fault hform
      · exact eq_of_mem_allObstacles forms fault hforms

end

end ParseTree

/-! ## Reading -/

namespace Expression

/-- An expression that a text spells is one of well-formed tokens. -/
theorem wellFormed_of_ofText? (text : String) (e : Expression) (h : ofText? text = some e) :
    ∀ t ∈ e.tokens, t.WellFormed := by
  rcases Option.bind_eq_some_iff.mp h with ⟨ts, hts, hread⟩
  rw [ofTokens?_eq_some] at hread
  rw [← hread]
  exact (Token.cut_of_all? _ ts hts).2

/-- A text has one derivation at most. -/
theorem subsingleton_of (text : String) : {form : ParseTree | form.Of text}.Subsingleton := by
  intro form hform other hother
  rcases (of_iff form text).mp hform with ⟨e, he, rfl⟩
  rcases (of_iff other text).mp hother with ⟨e', he', rfl⟩
  rw [he, Option.some.injEq] at he'
  rw [he']

end Expression

namespace Datum

/-- A text is read as the expression it spells is evaluated. -/
theorem parse_of_ofText? (text : String) (e : Expression) (h : Expression.ofText? text = some e) :
    parse text = e.datum := by
  rw [parse, h]

theorem parse_eq_ok_iff (text : String) (d : Datum) :
    parse text = .ok d ↔ ∃ e, Expression.ofText? text = some e ∧ e.datum = .ok d := by
  rw [parse]
  rcases Expression.ofText? text with _ | e
  · simp only [reduceCtorEq, false_and, exists_false]
  · simp only [Option.some.injEq, exists_eq_left']

/-- Evaluating an expression does not find fault with its spelling. -/
theorem parse_eq_malformed_iff (text : String) :
    parse text = .error (.time (.malformed text)) ↔ Expression.ofText? text = none := by
  rcases hspelled : Expression.ofText? text with _ | e
  · rw [parse, hspelled]
    exact iff_of_true rfl rfl
  · rw [parse_of_ofText? text e hspelled, ← stop?_eq_some_iff,
      ← e.head?_obstacles_tree (e.wellFormed_of_ofText? text hspelled)]
    refine iff_of_false (fun h => ?_) nofun
    rcases e.tree.eq_of_mem_obstacles _ (List.mem_of_mem_head? h) with h | ⟨n, h⟩ <;> cases h

/-- Reading accepts the grammar, up to integers that are too long. A text has
    one derivation at most, and without one it is refused as no expression. With
    a derivation it is read as what that denotes, if nothing is in the way of
    the value, and otherwise it is refused for the first thing that is: a dot
    without an item before it, or an integer of too many digits. So a text
    without such integers is read exactly if no list in it is headless, and is
    refused for the dot of one otherwise. -/
theorem parse_eq_iff (text : String) :
    {form : ParseTree | form.Of text}.Subsingleton
      ∧ (parse text = .error (.time (.malformed text)) ↔ ¬ ∃ form : ParseTree, form.Of text)
      ∧ ∀ (form : ParseTree) (lexemes : List Lexeme), Cut text.toList lexemes →
        form.Yields lexemes →
        (∀ d, parse text = .ok d ↔ form.obstacles = [] ∧ form.value? = some d)
          ∧ (∀ fault, parse text = .error fault ↔ form.obstacles.head? = some fault)
          ∧ (∀ fault ∈ form.obstacles, fault = .time (.invalid .noItemBeforeDot)
            ∨ ∃ n, fault = .argument (.numeralTooLong n))
          ∧ (.time (.invalid .noItemBeforeDot) ∈ form.obstacles ↔ form.Headless)
          ∧ (∀ n, .argument (.numeralTooLong n) ∈ form.obstacles
            ↔ ∃ lexeme ∈ lexemes, lexeme.IsTooLong ∧ Lexeme.digitCount lexeme.text = n)
          ∧ ((∀ lexeme ∈ lexemes, ¬ lexeme.IsTooLong) →
            ((∃ d, parse text = .ok d) ↔ ¬ form.Headless)
              ∧ (parse text = .error (.time (.invalid .noItemBeforeDot)) ↔ form.Headless)) := by
  refine ⟨Expression.subsingleton_of text, ?_, fun form lexemes hcut hyields => ?_⟩
  · rw [parse_eq_malformed_iff, Option.eq_none_iff_forall_ne_some]
    constructor
    · rintro hnone ⟨form, hform⟩
      rcases (Expression.of_iff form text).mp hform with ⟨e, he, -⟩
      exact hnone e he
    · intro hnone e he
      exact hnone ⟨e.tree, (Expression.of_iff e.tree text).mpr ⟨e, he, rfl⟩⟩
  -- Every part is a fact about the expression that the text spells.
  rcases (Expression.of_iff form text).mp ⟨lexemes, hcut, hyields⟩ with ⟨e, he, rfl⟩
  have hwell := e.wellFormed_of_ofText? text he
  have hheadless := e.tree.noItemBeforeDot_mem_iff
  have hlong := e.tree.numeralTooLong_mem_iff lexemes hyields
  have hkinds := e.tree.eq_of_mem_obstacles
  have hfault (fault : Fault) :
      parse text = .error fault ↔ e.tree.obstacles.head? = some fault := by
    rw [parse_of_ofText? text e he, e.head?_obstacles_tree hwell, stop?_eq_some_iff]
  have hread : (∃ d, parse text = .ok d) ↔ e.tree.obstacles = [] := by
    rw [parse_of_ofText? text e he, ← stop?_eq_none_iff, ← e.head?_obstacles_tree hwell,
      List.head?_eq_none_iff]
  refine ⟨fun d => ?_, hfault, hkinds, hheadless, hlong, fun hshort => ?_⟩
  · rw [parse_of_ofText? text e he, e.datum_eq_ok_iff hwell]
  rw [hread, hfault, ← hheadless]
  rcases hobstacles : e.tree.obstacles with _ | ⟨fault, rest⟩
  · exact ⟨iff_of_true rfl List.not_mem_nil, iff_of_false nofun List.not_mem_nil⟩
  · -- Without long integers only a dot can be the first thing in the way.
    have hmem : fault ∈ e.tree.obstacles := hobstacles ▸ List.mem_cons_self
    rcases hkinds fault hmem with rfl | ⟨n, rfl⟩
    · exact ⟨iff_of_false nofun (not_not_intro List.mem_cons_self),
        iff_of_true rfl List.mem_cons_self⟩
    · rcases (hlong n).mp hmem with ⟨lexeme, hlexeme, htoo, -⟩
      exact absurd htoo (hshort lexeme hlexeme)

/-- Lexemes that touch each other are told apart, a tail that is a list is
    spliced, and a dot that stands first is the only fault of its text. -/
theorem parse_eq_iff_touching :
    parse "(1.-5 . (nil))" = .ok (.sequence .round [.int 1, .int (-5), .nil])
      ∧ parse "(. 1)" = .error (.time (.invalid .noItemBeforeDot)) := by
  constructor
  · have hcut : Cut "(1.-5 . (nil))".toList
        [⟨.opening, ['(']⟩, ⟨.int, ['1', '.']⟩, ⟨.int, ['-', '5']⟩, ⟨.dot, ['.']⟩,
          ⟨.opening, ['(']⟩, ⟨.nil, ['n', 'i', 'l']⟩, ⟨.closing, [')']⟩, ⟨.closing, [')']⟩] :=
      @Cut.lexeme _ ['('] _ _ rfl (@Cut.lexeme _ ['1', '.'] _ _ rfl
        (@Cut.lexeme _ ['-', '5'] _ _ rfl (.blank rfl (@Cut.lexeme _ ['.'] _ _ rfl
          (.blank rfl (@Cut.lexeme _ ['('] _ _ rfl (@Cut.lexeme _ ['n', 'i', 'l'] _ _ rfl
            (@Cut.lexeme _ [')'] _ _ rfl (@Cut.lexeme _ [')'] [] _ rfl .done)))))))))
    have hone : (ParseTree.atom ⟨.int, ['1', '.']⟩).Yields [⟨.int, ['1', '.']⟩] := .atom trivial
    have hfive : (ParseTree.atom ⟨.int, ['-', '5']⟩).Yields [⟨.int, ['-', '5']⟩] := .atom trivial
    have hnil : (ParseTree.atom ⟨.nil, ['n', 'i', 'l']⟩).Yields [⟨.nil, ['n', 'i', 'l']⟩] :=
      .atom trivial
    have htail := @ParseTree.Yields.list _ ⟨.opening, ['(']⟩ ⟨.closing, [')']⟩ _ rfl
      (.cons hnil .nil) rfl
    have hyields := @ParseTree.Yields.dotted _ _ ⟨.opening, ['(']⟩ ⟨.dot, ['.']⟩
      ⟨.closing, [')']⟩ _ _ rfl (.cons hone (.cons hfive .nil)) rfl htail rfl
    exact (((parse_eq_iff _).2.2 _ _ hcut hyields).1 _).mpr ⟨rfl, rfl⟩
  · have hcut : Cut "(. 1)".toList
        [⟨.opening, ['(']⟩, ⟨.dot, ['.']⟩, ⟨.int, ['1']⟩, ⟨.closing, [')']⟩] :=
      @Cut.lexeme _ ['('] _ _ rfl (@Cut.lexeme _ ['.'] _ _ rfl (.blank rfl
        (@Cut.lexeme _ ['1'] _ _ rfl (@Cut.lexeme _ [')'] [] _ rfl .done))))
    have hone : (ParseTree.atom ⟨.int, ['1']⟩).Yields [⟨.int, ['1']⟩] := .atom trivial
    have hyields := @ParseTree.Yields.dotted _ _ ⟨.opening, ['(']⟩ ⟨.dot, ['.']⟩
      ⟨.closing, [')']⟩ _ _ rfl .nil rfl hone rfl
    exact (((parse_eq_iff _).2.2 _ _ hcut hyields).2.1 _).mpr rfl

/-- A number of 4301 ones belongs to the grammar, and no list in it is
    headless. It is not read, and what it is refused for is no error of a
    time. -/
theorem parse_stops_at_long_numeral :
    let text := String.ofList (List.replicate 4301 '1')
    let form : ParseTree := .atom ⟨.int, List.replicate 4301 '1'⟩
    form.Of text ∧ ¬ form.Headless
      ∧ parse text = .error (.argument (.numeralTooLong 4301)) := by
  intro text form
  let a : Atom := .int .none (List.replicate 4301 '1') false
  have hwell : a.WellFormed :=
    ⟨nofun, fun c hc => List.eq_of_mem_replicate hc ▸ by decide⟩
  have htext : a.text = List.replicate 4301 '1' := by
    simp only [a, Atom.text, Sign.text, List.nil_append, Bool.false_eq_true, if_false,
      List.append_nil]
  -- The digits are one token, whatever their number.
  have htokens := Token.all?_of_first? _ [] (.atom a) (Token.first?_text a [] hwell closed_nil)
  rw [List.append_nil, Token.all?_nil, htext] at htokens
  have hspelled : Expression.ofText? text = some (.atom a) := by
    rw [Expression.ofText?, String.toList_ofList, htokens, Option.map_some, Option.bind_some,
      Expression.ofTokens?_eq_some]
    rfl
  have htree : (Expression.atom a).tree = form := by
    rw [Expression.tree, Token.lexeme, Token.text, htext]
    rfl
  refine ⟨(Expression.of_iff form text).mpr ⟨_, hspelled, htree⟩, ParseTree.not_headless_atom _, ?_⟩
  have hlength : (List.replicate 4301 '1').length = 4301 := List.length_replicate
  rw [parse_of_ofText? text _ hspelled, Expression.datum, Atom.datum, hlength,
    if_neg (by decide)]
  rfl

end Datum

end PicoTime
