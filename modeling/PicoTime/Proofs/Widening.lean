import PicoTime.Proofs.RunningTotal
import PicoTime.Proofs.Window

/-!
# Wider Ranges

A range refuses times and never changes one. So whatever succeeds within a
range succeeds within a wider one, with the same result and the same samples
taken, and a program may widen its range without looking at what it has
computed so far.

For the check of a high digit this is plain. A double is checked twice, and
the first check is against a window that is computed in double precision from
the lower bound. Rounding keeps the order, so the wider range has the wider
window, as long as its lower bound is not beyond all doubles and it has a
window at all. What a double is taken apart into does not depend on the
range.

`Kept` and `KeptTimed` say that one computation keeps the successes of
another, and what is built in the same way from kept parts is kept.

## Main definitions

* `HighRange.Within`: A range is part of a wider one.
* `Kept`, `KeptTimed`: What succeeds in one way succeeds in another.

## Theorems

* `KeptTimed.bind`: Sequences of kept parts are kept.
* `HighRange.windowRank_mono`: A wider range has a wider window.
* `Binary64.within_mono`: What lies in a window lies in a wider one.
* `Datum.success_of_within`: A datum decodes to the same time.
* `HighRange.Within.keeps`: A wider range keeps every success.
-/

namespace PicoTime

open Binary64

/-- The first range is part of the second. -/
def HighRange.Within (range wider : HighRange) : Prop :=
  wider.min ≤ range.min ∧ range.max ≤ wider.max

theorem HighRange.Within.mem {range wider : HighRange} (h : range.Within wider) {n : Int}
    (hn : n ∈ range) : n ∈ wider :=
  ⟨h.1.trans hn.1, hn.2.trans h.2⟩

/-! ## Keeping successes -/

/-- What the first check lets pass, the second lets pass as well. -/
def Kept {ε α : Type} (x y : Except ε α) : Prop :=
  ∀ a, x = .ok a → y = .ok a

/-- What the first computation returns, the second returns as well, from the
    same clock and with the same samples taken. -/
def KeptTimed {α : Type} (x y : Timed α) : Prop :=
  ∀ before a after, Returns x before a after → Returns y before a after

theorem KeptTimed.refl {α : Type} (x : Timed α) : KeptTimed x x :=
  fun _ _ _ h => h

theorem KeptTimed.bind {α β : Type} {x y : Timed α} {f g : α → Timed β} (hxy : KeptTimed x y)
    (hfg : ∀ a, KeptTimed (f a) (g a)) : KeptTimed (x >>= f) (y >>= g) := by
  intro before b after h
  rcases (returns_bind _ _ _ _ _).mp h with ⟨a, between, hx, hf⟩
  exact (hxy before a between hx).bind (hfg a between b after hf)

theorem Kept.liftM {α : Type} {x y : Except Fault α} (h : Kept x y) :
    KeptTimed (liftM x) (liftM y) := by
  intro before a after hx
  rcases (returns_liftM _ _ _ _).mp hx with ⟨ha, hclock⟩
  exact (returns_liftM _ _ _ _).mpr ⟨h a ha, hclock⟩

/-! ## Wider windows -/

/-- A lower bound that is further from zero has a window that ends further. -/
theorem HighRange.windowRank_mono {range wider : HighRange} (h : wider.min ≤ range.min) :
    range.windowRank ≤ wider.windowRank := by
  have hle : (-range.min : Rat) ≤ -wider.min := by
    have hcast : (wider.min : Rat) ≤ range.min := by exact_mod_cast h
    linarith
  exact Nat.add_le_add_right
    (nearestRank_mono _ _ (one_pos.trans_le range.one_le_neg_min) hle) _

/-- What lies in a window lies in one that ends further. -/
theorem Binary64.within_mono (x : Binary64) {rank wide : Nat} (hle : rank ≤ wide)
    (h : x.within (ofRank true rank) (ofRank false rank) = true) :
    x.within (ofRank true wide) (ofRank false wide) = true := by
  rcases hx : x.isFinite with _ | _
  · rw [within_of_not_finite x hx] at h ⊢
    exact ⟨h.1, h.2.trans hle⟩
  · rw [within_of_finite x hx] at h ⊢
    have hvalue := rankValue_strictMono.monotone hle
    exact ⟨(neg_le_neg hvalue).trans h.1, h.2.trans_le hvalue⟩

section

variable {range wider : HighRange} (hwithin : range.Within wider)
  (hwindow : ∃ ends, wider.window = .ok ends)

include hwithin

theorem Decoded.checked_of_within (s t : Timestamp) (m n : Int)
    (h : checked range s m = .success t n) : checked wider s m = .success t n := by
  rw [checked_eq_success_iff] at h ⊢
  exact ⟨hwithin.mem h.1, h.2⟩

theorem Decoded.ofPlaces_of_within (high : Datum) (low : Int) (micro pico : Datum) (length : Int)
    (t : Timestamp) (n : Int) (h : ofPlaces range high low micro pico length = .success t n) :
    ofPlaces wider high low micro pico length = .success t n := by
  unfold ofPlaces at h ⊢
  split at h
  · exact checked_of_within hwithin _ t length n h
  · cases h

theorem Timestamp.kept_within (a b result : Timestamp) :
    Kept (within range a b result) (within wider a b result) := by
  intro t h
  rcases of_within_eq_ok range a b result t h with ⟨rfl, hmem⟩
  exact if_pos (hwithin.mem hmem)

theorem Timestamp.kept_ofComponents (c : Components) :
    Kept (ofComponents range c) (ofComponents wider c) := by
  intro t h
  unfold ofComponents at h ⊢
  dsimp only at h ⊢
  split_ifs at h with hmem
  rw [if_pos (hwithin.mem hmem), h]

theorem kept_highSeconds (seconds : Int) :
    Kept (highSeconds range seconds) (highSeconds wider seconds) := by
  intro n h
  unfold highSeconds at h ⊢
  dsimp only at h ⊢
  split_ifs at h with hmem
  rw [if_pos (hwithin.mem hmem), h]

theorem Sample.kept_split (s : Sample) : Kept (s.split range) (s.split wider) := by
  intro c h
  unfold split at h ⊢
  rcases hhigh : highSeconds range s.seconds with e | n
  · rw [hhigh] at h
    cases h
  · rw [hhigh] at h
    rw [kept_highSeconds hwithin _ n hhigh]
    exact h

include hwindow

/-- A double is taken apart into the same time. -/
theorem Decoded.ofFloat_of_within (x : Binary64) (t : Timestamp) (n : Int)
    (h : ofFloat range x = .ok (.success t n)) : ofFloat wider x = .ok (.success t n) := by
  rw [HighRange.exists_window_iff] at hwindow
  rw [ofFloat_eq_success_iff] at h ⊢
  rcases h with ⟨-, hin, c, hc, ht, hmem, hn⟩
  exact ⟨hwindow, x.within_mono (HighRange.windowRank_mono hwithin.1) hin, c, hc, ht,
    hwithin.mem hmem, hn⟩

/-- A form decodes to the same time. -/
theorem Form.success_of_within (form : Form) (before after : Clock) (t : Timestamp) (n : Int)
    (h : Returns (form.decode range) before (.success t n) after) :
    Returns (form.decode wider) before (.success t n) after := by
  cases form with
  | now =>
      rcases (returns_bind _ _ _ _ _).mp h with ⟨s, between, hs, hworded⟩
      rcases (Decoded.returns_worded_success _ _ _ _ _).mp hworded with ⟨hchecked, rfl⟩
      refine hs.bind ((Decoded.returns_worded_success _ _ _ _ _).mpr ⟨?_, rfl⟩)
      exact Decoded.checked_of_within hwithin _ t 4 n hchecked
  | float x =>
      rcases (returns_liftM _ _ _ _).mp h with ⟨hx, rfl⟩
      exact (returns_liftM _ _ _ _).mpr
        ⟨Decoded.ofFloat_of_within hwithin hwindow x t n hx, rfl⟩
  | components high low micro pico length =>
      rcases (Decoded.returns_worded_success _ _ _ _ _).mp h with ⟨hplaces, rfl⟩
      exact (Decoded.returns_worded_success _ _ _ _ _).mpr
        ⟨Decoded.ofPlaces_of_within hwithin high low micro pico length t n hplaces, rfl⟩

/-- A datum decodes to the same time. -/
theorem Datum.success_of_within (spec : Datum) (before after : Clock) (t : Timestamp) (n : Int)
    (h : Returns (spec.decode range) before (.success t n) after) :
    Returns (spec.decode wider) before (.success t n) after := by
  unfold decode at h ⊢
  split at h
  · next form _ => exact form.success_of_within hwithin hwindow before after t n h
  · cases ((Decoded.returns_worded_success _ _ _ _ _).mp h).1

/-- A datum resolves to the same time and length. -/
theorem Datum.keptTimed_resolve (spec : Datum) :
    KeptTimed (spec.resolve range) (spec.resolve wider) := by
  rintro before ⟨t, n⟩ after h
  rw [returns_resolve] at h ⊢
  exact success_of_within hwithin hwindow spec before after t n h

/-- An operation that is kept has its results kept. -/
theorem Datum.keptTimed_combine
    (op : HighRange → Timestamp → Timestamp → Except Fault Timestamp)
    (hop : ∀ s t, Kept (op range s t) (op wider s t)) (a b : Datum) :
    KeptTimed (combine op range a b) (combine op wider a b) := by
  refine (keptTimed_resolve hwithin hwindow a).bind fun ⟨s, m⟩ => ?_
  refine (keptTimed_resolve hwithin hwindow b).bind fun ⟨t, n⟩ => ?_
  exact (hop s t).liftM.bind fun result => KeptTimed.refl _

/-- A form has the same seconds. -/
theorem Form.keptTimed_inSeconds (form : Form) :
    KeptTimed (form.inSeconds range) (form.inSeconds wider) := by
  cases form with
  -- The current time and a double are seconds without any range.
  | now => exact KeptTimed.refl _
  | float x => exact KeptTimed.refl _
  | components high low micro pico length =>
      intro before y after h
      rcases (returns_bind _ _ _ _ _).mp h with ⟨d, between, hd, h⟩
      rcases (returns_bind _ _ _ _ _).mp h with ⟨⟨t, n⟩, later, ht, hy⟩
      have hsuccess : d = .success t n :=
        Decoded.eq_success_of_toExcept ((returns_orFault _ _ _ _).mp ht).1
      subst hsuccess
      exact (success_of_within hwithin hwindow _ before between t n hd).bind (ht.bind hy)

/-- A datum has the same seconds. -/
theorem Datum.keptTimed_inSeconds (spec : Datum) :
    KeptTimed (spec.inSeconds range) (spec.inSeconds wider) := by
  unfold inSeconds
  split
  · next form _ => exact form.keptTimed_inSeconds hwithin hwindow
  · exact KeptTimed.refl _

/-- A number of seconds has the same timestamp. -/
theorem Timestamp.kept_ofSeconds (number : Number) :
    Kept (ofSeconds range number) (ofSeconds wider number) := by
  intro t h
  rw [ofSeconds_eq_ok_iff] at h ⊢
  rcases h with ⟨x, n, hx, hd⟩
  exact ⟨x, n, hx, Decoded.ofFloat_of_within hwithin hwindow x t n hd⟩

end

/-- A wider range keeps every success: what is decoded, resolved, made of
    components, samples, the current time or a number of seconds, converted to
    seconds, added, subtracted or split is the same within a wider range, and
    takes the same samples. Only the wider range has to have a window. -/
theorem HighRange.Within.keeps {range wider : HighRange} (hwithin : range.Within wider)
    (hwindow : ∃ ends, wider.window = .ok ends) :
    (∀ (spec : Datum) before d after, Returns (spec.decode range) before d after →
      d.kind? = none → Returns (spec.decode wider) before d after) ∧
    (∀ spec : Datum, KeptTimed (spec.resolve range) (spec.resolve wider)) ∧
    (∀ c, Kept (Timestamp.ofComponents range c) (Timestamp.ofComponents wider c)) ∧
    (∀ s, Kept (Timestamp.ofSample range s) (Timestamp.ofSample wider s)) ∧
    KeptTimed (Timestamp.now range) (Timestamp.now wider) ∧
    (∀ number, Kept (Timestamp.ofSeconds range number) (Timestamp.ofSeconds wider number)) ∧
    (∀ spec : Datum, KeptTimed (spec.inSeconds range) (spec.inSeconds wider)) ∧
    (∀ s t, Kept (Timestamp.addWithin range s t) (Timestamp.addWithin wider s t)) ∧
    (∀ s t, Kept (Timestamp.subWithin range s t) (Timestamp.subWithin wider s t)) ∧
    (∀ a b : Datum, KeptTimed (a.add range b) (a.add wider b)) ∧
    (∀ a b : Datum, KeptTimed (a.subtract range b) (a.subtract wider b)) ∧
    (∀ seconds, Kept (highSeconds range seconds) (highSeconds wider seconds)) ∧
    (∀ s : Sample, Kept (s.split range) (s.split wider)) ∧
    KeptTimed (splitNow range) (splitNow wider) := by
  have hadd := fun s t => Timestamp.kept_within hwithin s t (s + t)
  have hsub := fun s t => Timestamp.kept_within hwithin s t (s - t)
  have hsample := fun s => Timestamp.kept_ofComponents hwithin (Components.ofSample s)
  refine ⟨fun spec before d after hd hkind => ?_, Datum.keptTimed_resolve hwithin hwindow,
    Timestamp.kept_ofComponents hwithin, hsample,
    (KeptTimed.refl sample).bind fun s => (hsample s).liftM,
    Timestamp.kept_ofSeconds hwithin hwindow, Datum.keptTimed_inSeconds hwithin hwindow, hadd, hsub,
    Datum.keptTimed_combine hwithin hwindow _ hadd, Datum.keptTimed_combine hwithin hwindow _ hsub,
    kept_highSeconds hwithin, Sample.kept_split hwithin,
    (KeptTimed.refl sample).bind fun s => (Sample.kept_split hwithin s).liftM⟩
  cases d with
  | success t n => exact Datum.success_of_within hwithin hwindow spec before after t n hd
  | failure kind cause n => cases hkind

/-- A second and a half before the epoch, and a difference with the current
    time that is before the epoch, within the two high digits around it. -/
theorem HighRange.Within.keeps_around_epoch :
    let narrow : HighRange := ⟨-1, 0, by decide, by decide⟩
    let clock : Clock := { tick := fun _ => ⟨1, 7⟩ }
    narrow.Within .fixnum ∧ (∃ ends, HighRange.fixnum.window = .ok ends) ∧
      Timestamp.ofSeconds .fixnum (.float (ofBits 0xbff8000000000000))
        = .ok ⟨-1, 65534, 500000, 0, by decide, by decide, by decide⟩ ∧
      Returns (Datum.nil.subtract .fixnum (.ofInts [0, 2])) clock
        [-1, 65535, 0, 7000] clock.advance := by
  intro narrow clock
  have hwithin : narrow.Within .fixnum := ⟨by decide, by decide⟩
  have hwindow : ∃ ends, HighRange.fixnum.window = .ok ends :=
    (exists_window_iff _).mpr (near_of_fixnumMin_le _ le_rfl)
  have hplaces : Components.ofFloat? (ofBits 0xbff8000000000000)
      = some ⟨-1, 65534, 500000, 0⟩ := by
    decide +kernel
  rcases hwithin.keeps hwindow with ⟨-, -, -, -, -, hseconds, -, -, -, -, hsubtract, -⟩
  refine ⟨hwithin, hwindow, hseconds _ _ ?_, hsubtract _ _ _ _ _ rfl⟩
  rw [Timestamp.ofSeconds_eq_ok_iff]
  refine ⟨_, 4, rfl, ?_⟩
  rw [Decoded.ofFloat_eq_success_iff]
  exact ⟨near_of_fixnumMin_le _ (by decide), by decide +kernel, _, hplaces, rfl, by decide, rfl⟩

end PicoTime
