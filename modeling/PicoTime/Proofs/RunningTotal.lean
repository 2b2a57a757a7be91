import PicoTime.Proofs.Decoding
import PicoTime.Session

/-!
# Running Totals

A session of sums and differences writes every intermediate result as a list
of places and reads it again at the next step. `total` is what the session
should come to if nothing were ever written: exact counts are added and
subtracted, and the length is that of the longest time met.

The two agree at every step. A step's result is a multiple of the unit it is
written with, since both operands are multiples of units that this one
divides; so the list decodes to the very count the total has, and the next
step starts from it. `WrittenAs` is that invariant, and the induction over
the session carries it.

Only the first step needs care with the clock. The start may itself ask for
the current time, and a step that subtracts from it asks for its own operand
first. The total is therefore kept as a computation until the first posting
has decided the order.

## Main definitions

* `Posting`: A step of a session that adds or subtracts.
* `Amount`: An exact count of picoseconds and a length.
* `Datum.amount`: What a datum amounts to.
* `total`: What some postings come to.
* `WrittenAs`: A datum is an amount, written with its places.

## Theorems

* `Timestamp.of_within_eq_ok`: A result that is returned is in the range.
* `Datum.exists_of_combine`: What an operation on two data writes.
* `Posting.writtenAs_of_apply`: One step writes the amount it comes to.
* `writtenAs_of_runSession`: A session ends with the total written out.
* `total_perm`: The order of postings does not matter to the total.
* `runSession_exact`: A session of postings is exact, in any order.
-/

namespace PicoTime

open Timestamp

/-- A step of a session that adds or subtracts. -/
inductive Posting where
  /-- Add a datum to the running one. -/
  | add (operand : Datum)
  /-- Subtract a datum from the running one. -/
  | subtract (operand : Datum)
  /-- Subtract the running datum from another. -/
  | subtractFrom (operand : Datum)

/-- The step of a session that a posting is. -/
def Posting.step : Posting → Step
  | .add x => .add x
  | .subtract x => .subtract x
  | .subtractFrom x => .subtractFrom x

/-- An exact count of picoseconds, and the length it is written with. -/
structure Amount where
  count : Int
  length : Int
  deriving DecidableEq

namespace Amount

/-- The sum of the counts, as long as the longer one. -/
def add (a b : Amount) : Amount :=
  ⟨a.count + b.count, max a.length b.length⟩

/-- The difference of the counts, as long as the longer one. -/
def sub (a b : Amount) : Amount :=
  ⟨a.count - b.count, max a.length b.length⟩

end Amount

/-- What a datum amounts to when it is decoded. -/
def Datum.amount (range : HighRange) (d : Datum) : Timed Amount := do
  let (t, n) ← d.resolve range
  return ⟨t.picoseconds, n⟩

/-- What a posting comes to from a running amount. The amounts are found out
    in the order in which they are written. -/
def Posting.amount (range : HighRange) (running : Timed Amount) : Posting → Timed Amount
  | .add x => do
    let a ← running
    let b ← x.amount range
    return a.add b
  | .subtract x => do
    let a ← running
    let b ← x.amount range
    return a.sub b
  | .subtractFrom x => do
    let b ← x.amount range
    let a ← running
    return b.sub a

/-- What some postings come to. Only for the first of them the running amount
    has still to be found out. -/
def total (range : HighRange) (running : Timed Amount) : List Posting → Timed Amount
  | [] => running
  | p :: ps => do
    let a ← p.amount range running
    total range (pure a) ps

/-- A datum is the places of a time in the range, and their unit divides the
    count. -/
def WrittenAs (range : HighRange) (a : Amount) (d : Datum) : Prop :=
  ∃ (ns : List Int) (t : Timestamp), d = .ofInts ns ∧ t.encode a.length = .ok ns ∧
    t.high ∈ range ∧ t.picoseconds = a.count ∧ resolution a.length ∣ a.count

/-- What is written decodes to the time it was written of. -/
theorem decode_of_writtenAs (range : HighRange) (a : Amount) (d : Datum)
    (h : WrittenAs range a d) :
    ∃ (ns : List Int) (t : Timestamp), d = .ofInts ns ∧ t.encode a.length = .ok ns ∧
      t.picoseconds = a.count ∧ d.decode range = pure (.success t a.length) := by
  rcases h with ⟨ns, t, rfl, henc, hmem, hcount, hdvd⟩
  have hn : IsLength a.length := ((encode_eq_ok_iff t _ ns).mp henc).1
  rw [← hcount, ← truncate_eq_self_iff t _ hn] at hdvd
  refine ⟨ns, t, rfl, henc, hcount, ?_⟩
  rw [Datum.decode_ofInts_of_encode range t _ ns henc, hdvd, Decoded.worded_checked_of_mem _ hmem]
  rfl

/-- The next step finds the amount that was written, and takes no sample. -/
theorem amount_of_writtenAs (range : HighRange) (a : Amount) (d : Datum)
    (h : WrittenAs range a d) : d.amount range = pure a := by
  rcases a with ⟨count, length⟩
  rcases decode_of_writtenAs range _ d h with ⟨ns, t, rfl, _, rfl, hdecode⟩
  unfold Datum.amount Datum.resolve
  rw [hdecode]
  rfl

theorem of_within_eq_ok (range : HighRange) (s t r result : Timestamp)
    (h : within range s t r = .ok result) : result = r ∧ result.high ∈ range := by
  unfold within at h
  split_ifs at h with hmem
  rw [Except.ok.injEq] at h
  exact ⟨h.symm, h ▸ hmem⟩

/-- An operation on two data writes its result with the places of the longer
    of them, and both data are multiples of the unit of those places. -/
theorem Datum.exists_of_combine
    (op : HighRange → Timestamp → Timestamp → Except Fault Timestamp)
    (range : HighRange) (x y : Datum) (before after : Clock) (ns : List Int)
    (h : Returns (combine op range x y) before ns after) :
    ∃ s m between t n result, Returns (x.resolve range) before (s, m) between ∧
      Returns (y.resolve range) between (t, n) after ∧ op range s t = .ok result ∧
      result.encode (max m n) = .ok ns ∧ resolution (max m n) ∣ s.picoseconds ∧
      resolution (max m n) ∣ t.picoseconds := by
  -- Both data are resolved, then the operation is checked, then written.
  rcases (returns_bind _ _ _ _ _).mp h with ⟨⟨s, m⟩, between, hx, h⟩
  rcases (returns_bind _ _ _ _ _).mp h with ⟨⟨t, n⟩, later, hy, h⟩
  rcases (returns_bind _ _ _ _ _).mp h with ⟨result, _, hresult, h⟩
  rcases (returns_liftM _ _ _ _).mp hresult with ⟨hop, rfl⟩
  rcases (returns_orFault _ _ _ _).mp h with ⟨henc, rfl⟩
  rcases exact_of_decode range x before between s m
    ((returns_resolve _ _ _ _ _ _).mp hx) with ⟨_, hm, hs⟩
  rcases exact_of_decode range y between later t n
    ((returns_resolve _ _ _ _ _ _).mp hy) with ⟨_, hn, ht⟩
  exact ⟨s, m, between, t, n, result, hx, hy, hop, henc, resolution_max_dvd m n _ _ hm hn hs ht⟩

theorem Datum.returns_amount (range : HighRange) (d : Datum) (before after : Clock)
    (t : Timestamp) (n : Int) (h : Returns (d.resolve range) before (t, n) after) :
    Returns (d.amount range) before ⟨t.picoseconds, n⟩ after :=
  h.bind (Returns.pure _ after)

/-- A sum of two data writes the sum of what they amount to. -/
theorem Datum.writtenAs_of_add (range : HighRange) (x y : Datum) (before after : Clock)
    (ns : List Int) (h : Returns (x.add range y) before ns after) :
    ∃ a between b, Returns (x.amount range) before a between ∧
      Returns (y.amount range) between b after ∧ WrittenAs range (a.add b) (.ofInts ns) := by
  rcases exists_of_combine addWithin range x y before after ns h with
    ⟨s, m, between, t, n, result, hx, hy, hop, henc, hs, ht⟩
  rcases of_within_eq_ok range s t _ result hop with ⟨rfl, hmem⟩
  refine ⟨⟨s.picoseconds, m⟩, between, ⟨t.picoseconds, n⟩, returns_amount range x _ _ s m hx,
    returns_amount range y _ _ t n hy, ns, s + t, rfl, henc, hmem, picoseconds_add s t, ?_⟩
  exact Int.dvd_add hs ht

/-- A difference of two data writes the difference of what they amount to. -/
theorem Datum.writtenAs_of_subtract (range : HighRange) (x y : Datum) (before after : Clock)
    (ns : List Int) (h : Returns (x.subtract range y) before ns after) :
    ∃ a between b, Returns (x.amount range) before a between ∧
      Returns (y.amount range) between b after ∧ WrittenAs range (a.sub b) (.ofInts ns) := by
  rcases exists_of_combine subWithin range x y before after ns h with
    ⟨s, m, between, t, n, result, hx, hy, hop, henc, hs, ht⟩
  rcases of_within_eq_ok range s t _ result hop with ⟨rfl, hmem⟩
  refine ⟨⟨s.picoseconds, m⟩, between, ⟨t.picoseconds, n⟩, returns_amount range x _ _ s m hx,
    returns_amount range y _ _ t n hy, ns, s - t, rfl, henc, hmem, picoseconds_sub s t, ?_⟩
  exact Int.dvd_sub hs ht

/-- A step that returns places as a datum has an operation that returns
    them. -/
theorem returns_ofInts (x : Timed (List Int)) (before after : Clock) (d : Datum)
    (h : Returns (x >>= fun ns => pure (Datum.ofInts ns)) before d after) :
    ∃ ns, d = .ofInts ns ∧ Returns x before ns after := by
  rcases (returns_bind _ _ _ _ _).mp h with ⟨ns, later, hx, hpure⟩
  rcases (returns_pure _ _ _ _).mp hpure with ⟨rfl, rfl⟩
  exact ⟨ns, rfl, hx⟩

/-- One step writes the amount that it comes to. -/
theorem Posting.writtenAs_of_apply (range : HighRange) (running : Datum) (p : Posting)
    (before after : Clock) (next : Datum)
    (h : Returns (p.step.apply range running) before next after) :
    ∃ a, Returns (p.amount range (running.amount range)) before a after ∧
      WrittenAs range a next := by
  -- Every step is an operation on two data whose places are then a datum.
  cases p with
  | add x =>
      rcases returns_ofInts _ _ _ _ h with ⟨ns, rfl, hop⟩
      rcases Datum.writtenAs_of_add range running x before after ns hop with
        ⟨a, between, b, ha, hb, hw⟩
      exact ⟨a.add b, ha.bind (hb.bind (Returns.pure _ after)), hw⟩
  | subtract x =>
      rcases returns_ofInts _ _ _ _ h with ⟨ns, rfl, hop⟩
      rcases Datum.writtenAs_of_subtract range running x before after ns hop with
        ⟨a, between, b, ha, hb, hw⟩
      exact ⟨a.sub b, ha.bind (hb.bind (Returns.pure _ after)), hw⟩
  | subtractFrom x =>
      -- Here the operand is the first of the two.
      rcases returns_ofInts _ _ _ _ h with ⟨ns, rfl, hop⟩
      rcases Datum.writtenAs_of_subtract range x running before after ns hop with
        ⟨b, between, a, hb, ha, hw⟩
      exact ⟨b.sub a, hb.bind (ha.bind (Returns.pure _ after)), hw⟩

/-- What a session goes on with, by what its first step ends with. -/
theorem runSession_cons (range : HighRange) (step : Step) (steps : List (Except Fault Step))
    (running : Datum) (clock : Clock) :
    runSession range (.ok step :: steps) running clock
      = match outcome (step.apply range running) clock with
        | (.ok next, later) => .ok next :: runSession range steps next later
        | (.error fault, later) => .error fault :: runSession range steps running later := rfl

/-- A session has an outcome for each of its steps. -/
theorem length_runSession (range : HighRange) (steps : List (Except Fault Step)) :
    ∀ (running : Datum) (clock : Clock),
      (runSession range steps running clock).length = steps.length := by
  induction steps with
  | nil =>
      intro running clock
      rfl
  | cons step steps ih =>
      intro running clock
      cases step with
      | error fault => exact congrArg (· + 1) (ih running clock)
      | ok step =>
          -- A step that fails has an outcome too, and the session goes on.
          rw [runSession_cons]
          rcases outcome (step.apply range running) clock with ⟨fault | next, later⟩
          · exact congrArg (· + 1) (ih running later)
          · exact congrArg (· + 1) (ih next later)

/-- A session in which every step succeeds ends with the total written out. -/
theorem writtenAs_of_runSession (range : HighRange) (ps : List Posting) :
    ∀ (running : Datum) (clock : Clock) (outs : List Datum) (final : Datum),
      runSession range (ps.map fun p => .ok p.step) running clock = outs.map .ok →
      outs.getLast? = some final →
      ∃ a later, Returns (total range (running.amount range) ps) clock a later ∧
        WrittenAs range a final := by
  induction ps with
  | nil =>
      intro running clock outs final hrun hlast
      have houts : outs = [] := List.map_eq_nil_iff.mp hrun.symm
      rw [houts] at hlast
      exact absurd hlast (by simp only [List.getLast?_nil, reduceCtorEq, not_false_eq_true])
  | cons p ps ih =>
      intro running clock outs final hrun hlast
      rw [List.map_cons, runSession_cons] at hrun
      rcases hout : outcome (p.step.apply range running) clock with ⟨fault | next, later⟩
      · -- A step that stops is not among the outcomes.
        rw [hout] at hrun
        rcases List.map_eq_cons_iff.mp hrun.symm with ⟨d, _, _, hd, _⟩
        exact absurd hd (by simp only [reduceCtorEq, not_false_eq_true])
      · rw [hout] at hrun
        rcases List.map_eq_cons_iff.mp hrun.symm with ⟨d, rest, rfl, hd, hrest⟩
        rw [Except.ok.injEq] at hd
        subst hd
        rcases p.writtenAs_of_apply range running clock later d hout with ⟨a, ha, hw⟩
        cases rest with
        | nil =>
            -- The last step: nothing is left to be posted.
            have hlen := congrArg List.length hrest
            simp only [length_runSession, List.length_map, List.length_nil] at hlen
            have hps : ps = [] := List.length_eq_zero_iff.mp hlen.symm
            rw [List.getLast?_singleton, Option.some.injEq] at hlast
            subst hps hlast
            exact ⟨a, later, ha.bind (Returns.pure a later), hw⟩
        | cons e rest =>
            rw [List.getLast?_cons_cons] at hlast
            rcases ih d later (e :: rest) final hrest.symm hlast with ⟨b, last, hb, hfinal⟩
            -- What was written is read as the amount itself, without a sample.
            rw [amount_of_writtenAs range a d hw] at hb
            exact ⟨b, last, ha.bind hb, hfinal⟩

/-- The operand of a posting. -/
def Posting.operand : Posting → Datum
  | .add x => x
  | .subtract x => x
  | .subtractFrom x => x

/-- A posting that adds or subtracts something else than the current time. -/
def Posting.IsSteady : Posting → Prop
  | .add x => x ≠ .nil
  | .subtract x => x ≠ .nil
  | .subtractFrom _ => False

/-- What a posting makes of an amount, given what its operand amounts to. -/
def Posting.apply (a b : Amount) : Posting → Amount
  | .add _ => a.add b
  | .subtract _ => a.sub b
  | .subtractFrom _ => b.sub a

theorem Form.ofItems?_ne_now (items : List Datum) : ofItems? items ≠ some .now := by
  unfold ofItems?
  split <;> simp only [ne_eq, Option.some.injEq, reduceCtorEq, not_false_eq_true]

theorem Form.ofDotted?_ne_now (first : Datum) (rest : List Datum) (tail : Datum) :
    ofDotted? first rest tail ≠ some .now := by
  unfold ofDotted?
  split
  · exact ofItems?_ne_now _
  · simp only [ne_eq, Option.some.injEq, reduceCtorEq, not_false_eq_true]
  · simp only [ne_eq, Option.some.injEq, reduceCtorEq, not_false_eq_true]
  · simp only [ne_eq, Option.some.injEq, reduceCtorEq, not_false_eq_true]
  · exact ofItems?_ne_now _
  · simp only [ne_eq, reduceCtorEq, not_false_eq_true]

/-- Only nil has the form of the current time. -/
theorem Datum.form?_ne_now (spec : Datum) (h : spec ≠ .nil) : spec.form? ≠ some .now := by
  cases spec with
  | nil => exact absurd rfl h
  | sequence _ items => exact Form.ofItems?_ne_now items
  | dotted first rest tail => exact Form.ofDotted?_ne_now first rest tail
  | int _ => simp only [form?, ne_eq, Option.some.injEq, reduceCtorEq, not_false_eq_true]
  | float _ => simp only [form?, ne_eq, Option.some.injEq, reduceCtorEq, not_false_eq_true]
  | bool _ => simp only [form?, ne_eq, reduceCtorEq, not_false_eq_true]
  | text _ => simp only [form?, ne_eq, reduceCtorEq, not_false_eq_true]
  | table _ => simp only [form?, ne_eq, reduceCtorEq, not_false_eq_true]

/-- Anything but nil decodes without a clock. -/
theorem Datum.exists_gives_decode (range : HighRange) (spec : Datum) (h : spec ≠ .nil) :
    ∃ result, Gives (spec.decode range) result := by
  unfold decode
  rcases hform : spec.form? with _ | form
  · exact ⟨_, fun clock => rfl⟩
  · cases form with
    -- Only the current time asks the clock.
    | now => exact absurd hform (form?_ne_now spec h)
    | float x => exact ⟨Decoded.ofFloat range x, fun clock => rfl⟩
    | components high low micro pico length => exact ⟨_, fun clock => rfl⟩

/-- Anything but nil resolves without a clock. -/
theorem Datum.exists_gives_resolve (range : HighRange) (spec : Datum) (h : spec ≠ .nil) :
    ∃ result, Gives (spec.resolve range) result := by
  rcases exists_gives_decode range spec h with ⟨fault | d, hd⟩
  · exact ⟨_, hd.bind_error _⟩
  · exact ⟨orFault d.toExcept, hd.bind fun clock => rfl⟩

/-- Anything but nil amounts to the same at every clock. -/
theorem Datum.returns_amount_of_ne_nil (range : HighRange) (spec : Datum) (h : spec ≠ .nil)
    (before after other : Clock) (a : Amount)
    (hamount : Returns (spec.amount range) before a after) :
    before = after ∧ Returns (spec.amount range) other a other := by
  rcases exists_gives_resolve range spec h with ⟨result, hgives⟩
  rcases (returns_bind _ _ _ _ _).mp hamount with ⟨⟨t, n⟩, later, hresolve, hpure⟩
  rcases (returns_pure _ _ _ _).mp hpure with ⟨rfl, rfl⟩
  rcases hgives.of_returns hresolve with ⟨rfl, hresolve'⟩
  exact ⟨rfl, returns_amount range spec other other t n (hresolve' other)⟩

/-- What the operand of a posting amounts to at a clock, if it is a time. -/
def Posting.worth (range : HighRange) (clock : Clock) (p : Posting) : Amount :=
  match (outcome (p.operand.amount range) clock).1 with
  | .ok a => a
  | .error _ => ⟨0, 0⟩

/-- A steady posting is applied to what the running amount is found to be. -/
theorem Posting.apply_of_amount (range : HighRange) (running : Timed Amount) (p : Posting)
    (hp : p.IsSteady) (before after clock : Clock) (a : Amount)
    (h : Returns (p.amount range running) before a after) :
    ∃ a₀, Returns running before a₀ after ∧ a = p.apply a₀ (p.worth range clock) := by
  -- The operand takes no sample, so any clock tells what it amounts to.
  have hworth : ∀ (x : Datum) (between : Clock) (b : Amount), x ≠ .nil → p.operand = x →
      Returns (x.amount range) between b after → between = after ∧ p.worth range clock = b := by
    rintro x between b hx rfl hb
    rcases Datum.returns_amount_of_ne_nil range p.operand hx between after clock b hb with
      ⟨heq, hother⟩
    refine ⟨heq, ?_⟩
    unfold worth
    rw [hother]
  cases p with
  | add x =>
      rcases (returns_bind _ _ _ _ _).mp h with ⟨a₀, between, hrunning, h⟩
      rcases (returns_bind _ _ _ _ _).mp h with ⟨b, later, hb, hpure⟩
      rcases (returns_pure _ _ _ _).mp hpure with ⟨rfl, rfl⟩
      rcases hworth x between b hp rfl hb with ⟨rfl, hw⟩
      exact ⟨a₀, hrunning, by rw [hw]; rfl⟩
  | subtract x =>
      rcases (returns_bind _ _ _ _ _).mp h with ⟨a₀, between, hrunning, h⟩
      rcases (returns_bind _ _ _ _ _).mp h with ⟨b, later, hb, hpure⟩
      rcases (returns_pure _ _ _ _).mp hpure with ⟨rfl, rfl⟩
      rcases hworth x between b hp rfl hb with ⟨rfl, hw⟩
      exact ⟨a₀, hrunning, by rw [hw]; rfl⟩
  | subtractFrom _ => exact absurd hp id

/-- The total of steady postings applies them one by one to the amount they
    begin with. -/
theorem foldl_of_total (range : HighRange) (clock : Clock) (ps : List Posting) :
    ∀ (running : Timed Amount) (before after : Clock) (a : Amount), (∀ p ∈ ps, p.IsSteady) →
      Returns (total range running ps) before a after →
      ∃ a₀, Returns running before a₀ after ∧
        a = ps.foldl (fun b p => p.apply b (p.worth range clock)) a₀ := by
  induction ps with
  | nil =>
      intro running before after a _ h
      exact ⟨a, h, rfl⟩
  | cons p ps ih =>
      intro running before after a hsteady h
      rcases (returns_bind _ _ _ _ _).mp h with ⟨b, between, hb, hrest⟩
      rcases ih (pure b) between after a (fun q hq => hsteady q (List.mem_cons_of_mem p hq))
        hrest with ⟨b', hpure, hfold⟩
      rcases (returns_pure _ _ _ _).mp hpure with ⟨rfl, rfl⟩
      rcases p.apply_of_amount range running (hsteady p List.mem_cons_self) before between clock
        b hb with ⟨a₀, hrunning, rfl⟩
      exact ⟨a₀, hrunning, hfold⟩

/-- Two postings that add or subtract can be applied in either order. -/
theorem Posting.apply_right_comm (p q : Posting) (hp : p.IsSteady) (hq : q.IsSteady)
    (a b c : Amount) : q.apply (p.apply a b) c = p.apply (q.apply a c) b := by
  cases p with
  | subtractFrom _ => exact absurd hp id
  | _ =>
      cases q with
      | subtractFrom _ => exact absurd hq id
      | _ =>
          simp only [apply, Amount.add, Amount.sub, Amount.mk.injEq]
          omega

/-- The order of steady postings does not matter to what they come to. -/
theorem total_perm (range : HighRange) (running : Timed Amount) (ps qs : List Posting)
    (hperm : ps.Perm qs) (hsteady : ∀ p ∈ ps, p.IsSteady) (before after later : Clock)
    (a b : Amount) (ha : Returns (total range running ps) before a after)
    (hb : Returns (total range running qs) before b later) : a = b := by
  rcases foldl_of_total range before ps running before after a hsteady ha with ⟨a₀, ha₀, rfl⟩
  rcases foldl_of_total range before qs running before later b
    (fun q hq => hsteady q (hperm.mem_iff.mpr hq)) hb with ⟨b₀, hb₀, rfl⟩
  rcases returns_unique running before a₀ b₀ after later ha₀ hb₀ with ⟨rfl, _⟩
  -- Both orders begin with the same amount, and neighbours can be exchanged.
  apply hperm.foldl_eq'
  intro p hp q hq c
  exact p.apply_right_comm q (hsteady p hp) (hsteady q hq) c _ _

/-- An amount is written in one way only. -/
theorem writtenAs_unique (range : HighRange) (a : Amount) (d e : Datum)
    (hd : WrittenAs range a d) (he : WrittenAs range a e) : d = e := by
  rcases hd with ⟨ns, s, rfl, hns, _, hs, _⟩
  rcases he with ⟨ms, t, rfl, hms, _, ht, _⟩
  -- A count has one timestamp.
  have hst : s = t := ext_of_picoseconds (hs.trans ht.symm)
  rw [hst, hms, Except.ok.injEq] at hns
  rw [hns]

/-- A session of postings in which every step succeeds is exact. It ends with
    digits, as many as the longest time has, that decode to the total of the
    exact counts. If all postings add or subtract something else than the
    current time, then any order of them in which every step succeeds ends
    with the same digits. -/
theorem runSession_exact (range : HighRange) (start : Datum) (clock : Clock) :
    (∀ (ps : List Posting) (outs : List Datum) (final : Datum),
      runSession range (ps.map fun p => .ok p.step) start clock = outs.map .ok →
      outs.getLast? = some final →
      ∃ (a : Amount) (later : Clock) (ns : List Int) (t : Timestamp),
        Returns (total range (start.amount range) ps) clock a later ∧
        final = .ofInts ns ∧ AreDigits ns ∧ (ns.length : Int) = a.length ∧
        final.decode range = pure (.success t a.length) ∧ t.picoseconds = a.count) ∧
    (∀ (ps qs : List Posting) (outs outs' : List Datum) (final final' : Datum),
      ps.Perm qs → (∀ p ∈ ps, p.IsSteady) →
      runSession range (ps.map fun p => .ok p.step) start clock = outs.map .ok →
      runSession range (qs.map fun p => .ok p.step) start clock = outs'.map .ok →
      outs.getLast? = some final → outs'.getLast? = some final' → final = final') := by
  constructor
  · intro ps outs final hrun hlast
    rcases writtenAs_of_runSession range ps start clock outs final hrun hlast with
      ⟨a, later, htotal, hwritten⟩
    rcases decode_of_writtenAs range a final hwritten with ⟨ns, t, hns, henc, hcount, hdecode⟩
    rcases areDigits_of_encode t _ ns henc with ⟨hdigits, hlen, _⟩
    exact ⟨a, later, ns, t, htotal, hns, hdigits, hlen, hdecode, hcount⟩
  · intro ps qs outs outs' final final' hperm hsteady hrun hrun' hlast hlast'
    rcases writtenAs_of_runSession range ps start clock outs final hrun hlast with
      ⟨a, after, ha, hfinal⟩
    rcases writtenAs_of_runSession range qs start clock outs' final' hrun' hlast' with
      ⟨b, later, hb, hfinal'⟩
    have hab := total_perm range _ ps qs hperm hsteady clock after later a b ha hb
    subst hab
    exact writtenAs_unique range a final final' hfinal hfinal'

/-- The current time subtracted from the time before it, then carries out of a
    dotted list and half a second taken off by a list with more than its four
    places: two and a half seconds and a microsecond before the epoch. And a
    sum and a difference in either order, one of them across the epoch and
    back. -/
theorem runSession_exact_across_epoch :
    let clock : Clock := { tick := fun n => ⟨10 + n, 1⟩ }
    let ps : List Posting :=
      [.subtractFrom .nil, .add (.dotted (.int 0) [.int (-1)] (.int (-1))),
        .subtract (.sequence .square [.int 0, .int 0, .int 499999, .int 1000000, .text "more"])]
    let up : Posting := .add (.sequence .square [.int 0, .int 1])
    let down : Posting := .subtract (.sequence .round [.int 0, .int 0, .int 1])
    let run (start : Datum) (ps : List Posting) := runSession .fixnum (ps.map fun p => .ok p.step)
      start clock
    run .nil ps
        = [.ofInts [-1, 65535, 0, 0], .ofInts [-1, 65533, 999999, 0],
          .ofInts [-1, 65533, 499999, 0]].map .ok ∧
      (∃ (a : Amount) (later : Clock) (ns : List Int) (t : Timestamp),
        Returns (total .fixnum (Datum.nil.amount .fixnum) ps) clock a later ∧
        Datum.ofInts [-1, 65533, 499999, 0] = .ofInts ns ∧ AreDigits ns ∧
        (ns.length : Int) = a.length ∧
        (Datum.ofInts [-1, 65533, 499999, 0]).decode .fixnum = pure (.success t a.length) ∧
        t.picoseconds = a.count) ∧
      run (.int 0) [up, down] = [.ofInts [0, 1], .ofInts [0, 0, 999999]].map .ok ∧
      run (.int 0) [down, up] = [.ofInts [-1, 65535, 999999], .ofInts [0, 0, 999999]].map .ok ∧
      (run (.int 0) [up, down]).getLast? = (run (.int 0) [down, up]).getLast? := by
  intro clock ps up down run
  have hlong : run .nil ps = [.ofInts [-1, 65535, 0, 0], .ofInts [-1, 65533, 999999, 0],
      .ofInts [-1, 65533, 499999, 0]].map .ok := by
    -- The samples have to be there as numbers for the session to be run.
    unfold run ps clock
    rfl
  have hup : run (.int 0) [up, down] = [.ofInts [0, 1], .ofInts [0, 0, 999999]].map .ok := rfl
  have hdown : run (.int 0) [down, up]
      = [.ofInts [-1, 65535, 999999], .ofInts [0, 0, 999999]].map .ok := rfl
  have hsame := (runSession_exact .fixnum (.int 0) clock).2 [up, down] [down, up] _ _ _ _
    (List.Perm.swap _ _ _) (by simp [up, down, Posting.IsSteady]) hup hdown rfl rfl
  refine ⟨hlong, (runSession_exact .fixnum .nil clock).1 ps _ _ hlong rfl, hup, hdown, ?_⟩
  rw [hup, hdown]
  exact congrArg (fun d => some (Except.ok d)) hsame

end PicoTime
