import PicoTime.Expression.Token

/-!
# Cutting a Text into Tokens

A reading splits a text without changing it: the token's own text is what the
text begins with, and the rest is what follows. That is shown for the parts
of an atom first, then for every kind of atom, then for tokens.

No token is empty. So the rest is always shorter than the text, and a text
can be cut token after token until nothing is left. A text of which a part is no
token is cut into none at all: where the cutting got stuck is not told.

## Main definitions

* `Token.all?`: The tokens of a text.

## Theorems

* `Token.eq_of_mem_readings`: Every reading is what the text begins with.
* `Token.text_ne_nil_of_mem_readings`: No reading takes an empty token.
* `Token.length_lt_of_first?`: What follows the first token is shorter.
-/

namespace PicoTime

theorem eq_of_afterWord? {w cs rest : List Char}
    (h : afterWord? w cs = some rest) : cs = w ++ rest := by
  fun_induction afterWord? w cs with
  | case1 => simpa using h
  | case2 => simp at h
  | case3 w ws cs ih => simp [ih h]
  | case4 => simp at h

theorem eq_of_takeSign {cs rest : List Char} {sign : Sign}
    (h : takeSign cs = (sign, rest)) : cs = sign.text ++ rest := by
  unfold takeSign at h
  split at h <;> simp_all [Sign.text] <;> simp [← h.1]

theorem eq_of_takeDigits {cs digits rest : List Char}
    (h : takeDigits cs = (digits, rest)) : cs = digits ++ rest := by
  simp only [takeDigits, Prod.mk.injEq] at h
  rw [← h.1, ← h.2, List.takeWhile_append_dropWhile]

theorem eq_of_someDigits? {cs digits rest : List Char}
    (h : someDigits? cs = some (digits, rest)) : cs = digits ++ rest := by
  simp only [someDigits?] at h
  split at h
  · simp at h
  · exact eq_of_takeDigits (Option.some.inj h)

theorem ne_nil_of_someDigits? {cs digits rest : List Char}
    (h : someDigits? cs = some (digits, rest)) : digits ≠ [] := by
  simp only [someDigits?] at h
  split at h
  · simp at h
  · next hne =>
    simp only [Option.some.injEq, Prod.mk.injEq] at h
    simpa [h.1] using hne

theorem eq_of_exponent? {cs rest : List Char} {e : Exponent}
    (h : exponent? cs = some (e, rest)) : cs = e.text ++ rest := by
  cases cs with
  | nil => simp [exponent?] at h
  | cons letter cs =>
    rcases hs : takeSign cs with ⟨sign, tail⟩
    simp only [exponent?, hs] at h
    split at h
    · obtain ⟨⟨digits, more⟩, hd, he⟩ := Option.map_eq_some_iff.1 h
      simp only [Prod.mk.injEq] at he
      obtain ⟨rfl, rfl⟩ := he
      simp [Exponent.text, eq_of_takeSign hs, eq_of_someDigits? hd]
    · simp at h

namespace Atom

theorem eq_of_nil? {cs rest : List Char} {a : Atom}
    (h : nil? cs = some (a, rest)) : cs = a.text ++ rest := by
  obtain ⟨tail, hw, he⟩ := Option.map_eq_some_iff.1 h
  simp only [Prod.mk.injEq] at he
  obtain ⟨rfl, rfl⟩ := he
  exact eq_of_afterWord? hw

theorem eq_of_special? {cs rest : List Char} {a : Atom}
    (h : special? cs = some (a, rest)) : cs = a.text ++ rest := by
  rcases hs : takeSign cs with ⟨sign, afterSign⟩
  simp only [special?, hs, Option.bind_eq_bind, Option.bind_eq_some_iff,
    Prod.exists] at h
  obtain ⟨whole, afterWhole, hw, afterPoint, hp, fraction, afterFraction, hf, h⟩ := h
  have hp := eq_of_afterWord? hp
  split at h
  · next hm =>
    simp only [pure, Option.some.injEq, Prod.mk.injEq] at h
    obtain ⟨rfl, rfl⟩ := h
    simp [text, eq_of_takeSign hs, eq_of_someDigits? hw, hp, eq_of_someDigits? hf,
      eq_of_afterWord? hm]
  · simp only [Option.bind_eq_some_iff, pure, Option.some.injEq,
      Prod.mk.injEq] at h
    obtain ⟨tail, hm, rfl, rfl⟩ := h
    simp [text, eq_of_takeSign hs, eq_of_someDigits? hw, hp, eq_of_someDigits? hf,
      eq_of_afterWord? hm]

theorem eq_of_float? {cs rest : List Char} {a : Atom}
    (h : float? cs = some (a, rest)) : cs = a.text ++ rest := by
  rcases hs : takeSign cs with ⟨sign, afterSign⟩
  rcases hw : takeDigits afterSign with ⟨whole, afterWhole⟩
  simp only [float?, hs, hw] at h
  split at h
  · next afterPoint hp =>
    obtain ⟨⟨fraction, afterFraction⟩, hf, he⟩ := Option.map_eq_some_iff.1 h
    have hp := eq_of_afterWord? hp
    split at he
    · next exponent tail hx =>
      have hx : exponent? afterFraction = some (exponent, tail) := hx
      simp only [Prod.mk.injEq] at he
      obtain ⟨rfl, rfl⟩ := he
      simp [text, eq_of_takeSign hs, eq_of_takeDigits hw, hp,
        eq_of_someDigits? hf, eq_of_exponent? hx]
    · simp only [Prod.mk.injEq] at he
      obtain ⟨rfl, rfl⟩ := he
      simp [text, eq_of_takeSign hs, eq_of_takeDigits hw, hp,
        eq_of_someDigits? hf]
  · split at h
    · simp at h
    · obtain ⟨⟨exponent, tail⟩, hx, he⟩ := Option.map_eq_some_iff.1 h
      simp only [Prod.mk.injEq] at he
      obtain ⟨rfl, rfl⟩ := he
      simp [text, eq_of_takeSign hs, eq_of_takeDigits hw, eq_of_exponent? hx]

theorem eq_of_int? {cs rest : List Char} {a : Atom}
    (h : int? cs = some (a, rest)) : cs = a.text ++ rest := by
  rcases hs : takeSign cs with ⟨sign, afterSign⟩
  simp only [int?, hs] at h
  obtain ⟨⟨digits, afterDigits⟩, hd, he⟩ := Option.map_eq_some_iff.1 h
  split at he
  · next tail hp =>
    have hp : afterWord? ['.'] afterDigits = some tail := hp
    simp only [Prod.mk.injEq] at he
    obtain ⟨rfl, rfl⟩ := he
    simp [text, eq_of_takeSign hs, eq_of_someDigits? hd, eq_of_afterWord? hp]
  · simp only [Prod.mk.injEq] at he
    obtain ⟨rfl, rfl⟩ := he
    simp [text, eq_of_takeSign hs, eq_of_someDigits? hd]

theorem text_ne_nil_of_nil? {cs rest : List Char} {a : Atom}
    (h : nil? cs = some (a, rest)) : a.text ≠ [] := by
  obtain ⟨tail, _, he⟩ := Option.map_eq_some_iff.1 h
  simp [← (Prod.mk.inj he).1, text, nilWord]

theorem text_ne_nil_of_special? {cs rest : List Char} {a : Atom}
    (h : special? cs = some (a, rest)) : a.text ≠ [] := by
  simp only [special?, Option.bind_eq_bind, Option.bind_eq_some_iff,
    Prod.exists] at h
  obtain ⟨_, _, _, _, _, _, _, _, h⟩ := h
  split at h
  · simp only [pure, Option.some.injEq, Prod.mk.injEq] at h
    simp [← h.1, text]
  · simp only [Option.bind_eq_some_iff, pure, Option.some.injEq,
      Prod.mk.injEq] at h
    obtain ⟨_, _, rfl, _⟩ := h
    simp [text]

theorem text_ne_nil_of_float? {cs rest : List Char} {a : Atom}
    (h : float? cs = some (a, rest)) : a.text ≠ [] := by
  simp only [float?] at h
  split at h
  · obtain ⟨_, _, he⟩ := Option.map_eq_some_iff.1 h
    split at he <;> simp [← (Prod.mk.inj he).1, text]
  · split at h
    · simp at h
    · obtain ⟨_, _, he⟩ := Option.map_eq_some_iff.1 h
      simp [← (Prod.mk.inj he).1, text, Exponent.text]

theorem text_ne_nil_of_int? {cs rest : List Char} {a : Atom}
    (h : int? cs = some (a, rest)) : a.text ≠ [] := by
  simp only [int?] at h
  obtain ⟨⟨digits, tail⟩, hd, he⟩ := Option.map_eq_some_iff.1 h
  have hne := ne_nil_of_someDigits? hd
  split at he <;> simp [← (Prod.mk.inj he).1, text, hne]

end Atom

namespace Token

theorem eq_of_ofAtom? {reader : List Char → Option (Atom × List Char)}
    (hreader : ∀ {a rest cs}, reader cs = some (a, rest) → cs = a.text ++ rest)
    {cs rest : List Char} {t : Token}
    (h : ofAtom? reader cs = some (t, rest)) : cs = t.text ++ rest := by
  obtain ⟨⟨a, tail⟩, ha, he⟩ := Option.map_eq_some_iff.1 h
  simp only [Prod.mk.injEq] at he
  obtain ⟨rfl, rfl⟩ := he
  exact hreader ha

theorem text_ne_nil_of_ofAtom? {reader : List Char → Option (Atom × List Char)}
    (hreader : ∀ {a rest cs}, reader cs = some (a, rest) → a.text ≠ [])
    {cs rest : List Char} {t : Token}
    (h : ofAtom? reader cs = some (t, rest)) : t.text ≠ [] := by
  obtain ⟨⟨a, tail⟩, ha, he⟩ := Option.map_eq_some_iff.1 h
  simpa [← (Prod.mk.inj he).1, text] using hreader ha

theorem eq_of_literal? {token t : Token} {cs rest : List Char}
    (h : literal? token cs = some (t, rest)) : cs = t.text ++ rest := by
  obtain ⟨tail, hw, he⟩ := Option.map_eq_some_iff.1 h
  simp only [Prod.mk.injEq] at he
  obtain ⟨rfl, rfl⟩ := he
  exact eq_of_afterWord? hw

/-- Every reading of a text is what the text begins with. -/
theorem eq_of_mem_readings {cs rest : List Char} {t : Token}
    (h : (t, rest) ∈ readings cs) : cs = t.text ++ rest := by
  simp only [readings, readers, List.mem_filterMap, List.mem_cons,
    List.not_mem_nil, or_false] at h
  obtain ⟨reader, hr, h⟩ := h
  rcases hr with rfl | rfl | rfl | rfl | rfl | rfl | rfl
  · exact eq_of_ofAtom? Atom.eq_of_special? h
  · exact eq_of_ofAtom? Atom.eq_of_nil? h
  · exact eq_of_ofAtom? Atom.eq_of_float? h
  · exact eq_of_ofAtom? Atom.eq_of_int? h
  · exact eq_of_literal? h
  · exact eq_of_literal? h
  · exact eq_of_literal? h

/-- The first token is what the text begins with. -/
theorem eq_of_first? {cs rest : List Char} {t : Token}
    (h : first? cs = some (t, rest)) : cs = t.text ++ rest :=
  eq_of_mem_readings (List.mem_of_mem_head? (by simpa [first?] using h))

theorem text_ne_nil_of_literal? {token t : Token} {cs rest : List Char}
    (htoken : token.text ≠ []) (h : literal? token cs = some (t, rest)) :
    t.text ≠ [] := by
  obtain ⟨_, _, he⟩ := Option.map_eq_some_iff.1 h
  simpa [← (Prod.mk.inj he).1] using htoken

/-- No reading takes an empty token. -/
theorem text_ne_nil_of_mem_readings {cs rest : List Char} {t : Token}
    (h : (t, rest) ∈ readings cs) : t.text ≠ [] := by
  simp only [readings, readers, List.mem_filterMap, List.mem_cons,
    List.not_mem_nil, or_false] at h
  obtain ⟨reader, hr, h⟩ := h
  rcases hr with rfl | rfl | rfl | rfl | rfl | rfl | rfl
  · exact text_ne_nil_of_ofAtom? Atom.text_ne_nil_of_special? h
  · exact text_ne_nil_of_ofAtom? Atom.text_ne_nil_of_nil? h
  · exact text_ne_nil_of_ofAtom? Atom.text_ne_nil_of_float? h
  · exact text_ne_nil_of_ofAtom? Atom.text_ne_nil_of_int? h
  · exact text_ne_nil_of_literal? (by simp [text]) h
  · exact text_ne_nil_of_literal? (by simp [text]) h
  · exact text_ne_nil_of_literal? (by simp [text]) h

/-- What follows the first token is shorter than the text. -/
theorem length_lt_of_first? {cs rest : List Char} {t : Token}
    (h : first? cs = some (t, rest)) : rest.length < cs.length := by
  have hmem : (t, rest) ∈ readings cs :=
    List.mem_of_mem_head? (by simpa [first?] using h)
  have hpos := List.length_pos_iff.2 (text_ne_nil_of_mem_readings hmem)
  have hlen := congrArg List.length (eq_of_mem_readings hmem)
  rw [List.length_append] at hlen
  omega

/-- The tokens of a text, if it can be cut into tokens and blanks. -/
def all? (cs : List Char) : Option (List Token) :=
  match cs with
  | [] => some []
  | c :: rest =>
    if isBlank c then all? rest
    else
      match h : first? (c :: rest) with
      | some (t, more) =>
        have : more.length < rest.length + 1 := length_lt_of_first? h
        (all? more).map fun ts => t :: ts
      | none => none
termination_by cs.length

end Token

end PicoTime
