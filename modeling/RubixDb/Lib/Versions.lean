import Mathlib

/-!
# Multi-version sources and first-hit lookup

A source is a list of versions `(key, seq, value)`. Two ways of reading a key as
of a sequence number `s` are compared:

* `best` looks at every version there is and takes the newest one at or below `s`;
* `firstHit` walks a list of sources and stops at the first that holds any version
  at or below `s`.

They agree when the sources are in recency order. The weakest order that is enough for
reads at `s` is `NewerAt s`, which compares the newest versions visible at `s`. `Recent`
implies it for every `s`, and `Newer`, which compares the newest versions there are, for
reads at the top. `SourceOrder` is what arguments about moving sources around need of
any of them.
-/

namespace Lib

open List

variable {s' : Nat}

/-- One version of one key. -/
structure Version (K V : Type) where
  key : K
  seq : Nat
  value : V
deriving DecidableEq, Repr

variable {K V : Type} {es fs t u : List (Version K V)} {ts srcs : List (List (Version K V))}
    {k : K} {s : Nat} {v : Version K V} {R : List (Version K V) → List (Version K V) → Prop}
    {ps : List (Version K V)}

/-- `v` is a version of `k` visible at `s`. -/
def Visible (k : K) (s : Nat) (v : Version K V) : Prop := v.key = k ∧ v.seq ≤ s

/-- `v` is what a read of `k` at `s` over `es` should return. -/
def IsBest (es : List (Version K V)) (k : K) (s : Nat) (v : Version K V) : Prop :=
  v ∈ es ∧ Visible k s v ∧ ∀ w ∈ es, Visible k s w → w.seq ≤ v.seq

/-- `acc` is the right answer to a read of `k` at `s` over `ps`. -/
def Answers (ps : List (Version K V)) (k : K) (s : Nat) : Option (Version K V) → Prop
  | none => ∀ w ∈ ps, ¬ Visible k s w
  | some v => IsBest ps k s v

/-- Key and sequence number identify the version. -/
def Coherent (es : List (Version K V)) : Prop :=
  ∀ v ∈ es, ∀ w ∈ es, v.key = w.key → v.seq = w.seq → v = w

/-- `es` holds a version of `k`. -/
def HasKey (es : List (Version K V)) (k : K) : Prop := ∃ v ∈ es, v.key = k

/--
`t` is more recent than `u`: of a key both hold, `u` has only versions that `t`
has too or that are older than everything `t` has.
-/
def Recent (t u : List (Version K V)) : Prop :=
  ∀ w ∈ u, HasKey t w.key → w ∈ t ∨ ∀ v ∈ t, v.key = w.key → w.seq < v.seq

/-- Of a key both hold, `t` has a version at least as new as any in `u`. -/
def Newer (t u : List (Version K V)) : Prop :=
  ∀ w ∈ u, HasKey t w.key → ∃ v ∈ t, v.key = w.key ∧ w.seq ≤ v.seq

/-- Of a key both hold visibly at `s`, `t` has a visible version at least as new as any in
`u`. -/
def NewerAt (s : Nat) (t u : List (Version K V)) : Prop :=
  ∀ w ∈ u, w.seq ≤ s → (∃ v ∈ t, Visible w.key s v) →
    ∃ v ∈ t, Visible w.key s v ∧ w.seq ≤ v.seq

/-- Whatever a read at `s` sees in `u`, `t` has a version of that it sees and prefers. -/
def Covers (s : Nat) (t u : List (Version K V)) : Prop :=
  ∀ w ∈ u, w.seq ≤ s → ∃ v ∈ t, Visible w.key s v ∧ w.seq ≤ v.seq

/-- What the orders on sources have in common. -/
structure SourceOrder (R : List (Version K V) → List (Version K V) → Prop) : Prop where
  refl : ∀ t, R t t
  /-- What stands behind `t` is judged version by version. -/
  right : ∀ {t u : List (Version K V)}, (∀ w ∈ u, ∃ u', w ∈ u' ∧ R t u') → R t u
  /-- Sources that share no key may stand in any order. -/
  apart : ∀ {t u : List (Version K V)}, (∀ w ∈ u, ¬ HasKey t w.key) → R t u

theorem Coherent.subset (h : Coherent fs) (hs : ∀ e ∈ es, e ∈ fs) : Coherent es :=
  fun v hv w hw => h v (hs v hv) w (hs w hw)

theorem Recent.newerAt (h : Recent t u) (s : Nat) : NewerAt s t u := by
  rintro w hw hws ⟨v, hv, hvis⟩
  rcases h w hw ⟨v, hv, hvis.1⟩ with ht | hlt
  · exact ⟨w, ht, ⟨rfl, hws⟩, Nat.le_refl _⟩
  · exact ⟨v, hv, hvis, Nat.le_of_lt (hlt v hv hvis.1)⟩

theorem Newer.newerAt (h : Newer t u) (hs : ∀ v ∈ t, v.seq ≤ s) : NewerAt s t u := by
  rintro w hw _ ⟨v, hv, hvis⟩
  obtain ⟨x, hx, hxk, hle⟩ := h w hw ⟨v, hv, hvis.1⟩
  exact ⟨x, hx, ⟨hxk, hs x hx⟩, hle⟩

theorem recent_order : SourceOrder (Recent (K := K) (V := V)) where
  refl := fun _ _ hw _ => .inl hw
  right := fun h w hw => let ⟨_, hm, hr⟩ := h w hw; hr w hm
  apart := fun h w hw hk => absurd hk (h w hw)

theorem newer_order : SourceOrder (Newer (K := K) (V := V)) where
  refl := fun _ w hw _ => ⟨w, hw, rfl, Nat.le_refl _⟩
  right := fun h w hw => let ⟨_, hm, hr⟩ := h w hw; hr w hm
  apart := fun h w hw hk => absurd hk (h w hw)

theorem newerAt_order (s : Nat) : SourceOrder (NewerAt (K := K) (V := V) s) where
  refl := fun _ w hw hws _ => ⟨w, hw, ⟨rfl, hws⟩, Nat.le_refl _⟩
  right := fun h w hw => let ⟨_, hm, hr⟩ := h w hw; hr w hm
  apart := fun h w hw _ hk => absurd (hk.imp fun _ hv => ⟨hv.1, hv.2.1⟩) (h w hw)

theorem SourceOrder.subset_right (hR : SourceOrder R) {u' : List (Version K V)} (h : R t u)
    (hs : ∀ e ∈ u', e ∈ u) : R t u' :=
  hR.right fun w hw => ⟨u, hs w hw, h⟩

theorem covers_of_subset (h : ∀ e ∈ u, e ∈ t) : Covers s t u :=
  fun w hw hws => ⟨w, h w hw, ⟨rfl, hws⟩, Nat.le_refl _⟩

theorem Covers.trans {x : List (Version K V)} (h : Covers s t u)
    (h' : Covers s u x) : Covers s t x := by
  intro w hw hws
  obtain ⟨v, hv, hvis, hle⟩ := h' w hw hws
  obtain ⟨v', hv', hvis', hle'⟩ := h v hv hvis.2
  exact ⟨v', hv', ⟨hvis'.1.trans hvis.1, hvis'.2⟩, hle.trans hle'⟩

/-- Above everything `t` holds, covering does not depend on `s`. -/
theorem Covers.mono (h : Covers s t u) (hu : ∀ w ∈ u, w.seq ≤ s) (hs : s ≤ s') : Covers s' t u := by
  intro w hw _
  obtain ⟨v, hv, hvis, hle⟩ := h w hw (hu w hw)
  exact ⟨v, hv, ⟨hvis.1, hvis.2.trans hs⟩, hle⟩

theorem NewerAt.mono (h : NewerAt s t u) (ht : ∀ w ∈ t, w.seq ≤ s) (hu : ∀ w ∈ u, w.seq ≤ s)
    (hs : s ≤ s') : NewerAt s' t u := by
  rintro w hw _ ⟨v, hv, hvis⟩
  obtain ⟨v', hv', hvis', hle⟩ := h w hw (hu w hw) ⟨v, hv, hvis.1, ht v hv⟩
  exact ⟨v', hv', ⟨hvis'.1, hvis'.2.trans hs⟩, hle⟩

/-- Above everything there is, `NewerAt` is `Newer`. -/
theorem NewerAt.newer (h : NewerAt s t u) (ht : ∀ w ∈ t, w.seq ≤ s)
    (hu : ∀ w ∈ u, w.seq ≤ s) : Newer t u := by
  rintro w hw ⟨v, hv, hk⟩
  obtain ⟨v', hv', hvis, hle⟩ := h w hw (hu w hw) ⟨v, hv, hk, ht v hv⟩
  exact ⟨v', hv', hvis.1, hle⟩

/-- What covers a source is as new as it. -/
theorem NewerAt.covers {t' : List (Version K V)} (h : NewerAt s t u) (hsub : ∀ e ∈ t', e ∈ t)
    (hc : Covers s t' t) : NewerAt s t' u := by
  rintro w hw hws ⟨v, hv, hvis⟩
  obtain ⟨v', hv', hvis', hle⟩ := h w hw hws ⟨v, hsub v hv, hvis⟩
  obtain ⟨x, hx, hxvis, hle'⟩ := hc v' hv' hvis'.2
  exact ⟨x, hx, ⟨hxvis.1.trans hvis'.1, hxvis.2⟩, hle.trans hle'⟩

/-- A source may stand twice in a row. -/
theorem SourceOrder.double (hR : SourceOrder R) {us : List (List (Version K V))}
    (h : (ts ++ t :: us).Pairwise R) : (ts ++ t :: t :: us).Pairwise R := by
  obtain ⟨hts, htus, hcross⟩ := pairwise_append.mp h
  refine pairwise_append.mpr ⟨hts, pairwise_cons.mpr ⟨fun u hu => ?_, htus⟩, ?_⟩
  · rcases mem_cons.mp hu with rfl | hu
    · exact hR.refl _
    · exact (pairwise_cons.mp htus).1 u hu
  · intro s hs u hu
    rcases mem_cons.mp hu with rfl | hu
    · exact hcross s hs _ (by simp)
    · exact hcross s hs u hu

theorem IsBest.append_single {e : Version K V} (h : IsBest ps k s v)
    (he : Visible k s e → e.seq ≤ v.seq) : IsBest (ps ++ [e]) k s v := by
  obtain ⟨hm, hv, hmax⟩ := h
  refine ⟨mem_append_left _ hm, hv, ?_⟩
  intro w hw hwv
  rcases mem_append.mp hw with hw | hw
  · exact hmax w hw hwv
  · obtain rfl := mem_singleton.mp hw
    exact he hwv

variable [DecidableEq K]

instance (k : K) (s : Nat) (v : Version K V) : Decidable (Visible k s v) :=
  inferInstanceAs (Decidable (_ ∧ _))

instance (es : List (Version K V)) (k : K) : Decidable (HasKey es k) :=
  inferInstanceAs (Decidable (∃ v ∈ es, _))

instance [DecidableEq V] (es : List (Version K V)) (k : K) (s : Nat) (v : Version K V) :
    Decidable (IsBest es k s v) :=
  inferInstanceAs (Decidable (_ ∧ _ ∧ ∀ w ∈ es, _ → _))

instance [DecidableEq V] (es : List (Version K V)) (k : K) (s : Nat)
    (acc : Option (Version K V)) : Decidable (Answers es k s acc) :=
  match acc with
  | none => inferInstanceAs (Decidable (∀ w ∈ es, ¬ _))
  | some v => inferInstanceAs (Decidable (IsBest es k s v))

instance [DecidableEq V] (t u : List (Version K V)) : Decidable (Recent t u) :=
  inferInstanceAs (Decidable (∀ w ∈ u, _ → _ ∨ ∀ v ∈ t, _ → _))

instance (t u : List (Version K V)) : Decidable (Newer t u) :=
  inferInstanceAs (Decidable (∀ w ∈ u, _ → ∃ v ∈ t, _ ∧ _))

instance (s : Nat) (t u : List (Version K V)) : Decidable (NewerAt s t u) :=
  inferInstanceAs (Decidable (∀ w ∈ u, _ → (∃ v ∈ t, _) → ∃ v ∈ t, _ ∧ _))

/-- `e` against the best candidate so far: a strictly newer version replaces it. -/
def pickNewer (k : K) (s : Nat) (acc : Option (Version K V)) (e : Version K V) :
    Option (Version K V) :=
  if e.key = k ∧ e.seq ≤ s then
    match acc with
    | none => some e
    | some b => if b.seq < e.seq then some e else some b
  else acc

/-- The newest version of `k` at or below `s`. -/
def best (es : List (Version K V)) (k : K) (s : Nat) : Option (Version K V) :=
  es.foldl (pickNewer k s) none

/-- The first source that holds a version of `k` at or below `s` answers. -/
def firstHit (srcs : List (List (Version K V))) (k : K) (s : Nat) : Option (Version K V) :=
  srcs.findSome? fun es => best es k s

/-! ## `best` finds the newest visible version -/

/-- One more version keeps the answer right. -/
theorem answers_pickNewer {acc : Option (Version K V)} (h : Answers ps k s acc) (e : Version K V) :
    Answers (ps ++ [e]) k s (pickNewer k s acc e) := by
  unfold pickNewer
  by_cases he : e.key = k ∧ e.seq ≤ s
  · rw [if_pos he]
    have hnew : (∀ w ∈ ps, Visible k s w → w.seq ≤ e.seq) → IsBest (ps ++ [e]) k s e := by
      intro hps
      refine ⟨by simp, he, ?_⟩
      intro w hw hwv
      rcases mem_append.mp hw with hw | hw
      · exact hps w hw hwv
      · obtain rfl := mem_singleton.mp hw
        exact Nat.le_refl _
    cases acc with
    | none => exact hnew fun w hw hwv => absurd hwv (h w hw)
    | some b =>
      by_cases hb : b.seq < e.seq
      · simp only [if_pos hb]
        exact hnew fun w hw hwv => by have := h.2.2 w hw hwv; omega
      · simp only [if_neg hb]
        exact h.append_single fun _ => by omega
  · rw [if_neg he]
    cases acc with
    | none =>
      intro w hw hwv
      rcases mem_append.mp hw with hw | hw
      · exact h w hw hwv
      · rw [mem_singleton.mp hw] at hwv
        exact he hwv
    | some b => exact h.append_single fun hv => absurd hv he

theorem answers_foldl (es ps : List (Version K V)) (acc : Option (Version K V))
    (h : Answers ps k s acc) : Answers (ps ++ es) k s (es.foldl (pickNewer k s) acc) := by
  induction es generalizing ps acc with
  | nil => simpa using h
  | cons e es ih =>
    have key := ih (ps ++ [e]) _ (answers_pickNewer h e)
    rwa [append_assoc] at key

theorem answers_best (es : List (Version K V)) (k : K) (s : Nat) : Answers es k s (best es k s) :=
  answers_foldl es [] none fun _ hw => absurd hw (by simp)

theorem isBest_of_best (h : best es k s = some v) : IsBest es k s v := by
  have key := answers_best es k s
  rwa [h] at key

/-- `best` gives up only when nothing is visible. -/
theorem best_eq_none_iff : best es k s = none ↔ ∀ w ∈ es, ¬ Visible k s w := by
  constructor
  · intro h
    have key := answers_best es k s
    rwa [h] at key
  · intro h
    cases hb : best es k s with
    | none => rfl
    | some v =>
      obtain ⟨hm, hv, _⟩ := isBest_of_best hb
      exact absurd hv (h v hm)

theorem best_isSome_of_mem (hm : v ∈ es) (hv : Visible k s v) : ∃ w, best es k s = some w := by
  cases hb : best es k s with
  | none => exact absurd hv (best_eq_none_iff.mp hb v hm)
  | some w => exact ⟨w, rfl⟩

/-- In a coherent source the newest visible version is unique, so `best` is it. -/
theorem best_eq_of_isBest (hc : Coherent es) (h : IsBest es k s v) : best es k s = some v := by
  obtain ⟨hm, hv, hmax⟩ := h
  obtain ⟨w, hw⟩ := best_isSome_of_mem hm hv
  obtain ⟨hwm, hwv, hwmax⟩ := isBest_of_best hw
  have hseq : w.seq = v.seq := Nat.le_antisymm (hmax w hwm hwv) (hwmax v hm hv)
  rw [hw, hc w hwm v hm (hwv.1.trans hv.1.symm) hseq]

/-- `best` depends only on which visible versions there are. -/
theorem best_congr (hc : Coherent fs)
    (h : ∀ e, Visible k s e → (e ∈ es ↔ e ∈ fs)) : best es k s = best fs k s := by
  cases hb : best es k s with
  | none =>
    refine (best_eq_none_iff.mpr fun w hw hv => ?_).symm
    exact best_eq_none_iff.mp hb w ((h w hv).mpr hw) hv
  | some v =>
    obtain ⟨hm, hv, hmax⟩ := isBest_of_best hb
    refine (best_eq_of_isBest hc ⟨(h v hv).mp hm, hv, ?_⟩).symm
    exact fun w hw hwv => hmax w ((h w hwv).mpr hw) hwv

/-! ## First hit against best -/

/-- Nothing visible in `t`: the read goes on to the next source. -/
theorem firstHit_cons_none (h : best t k s = none) : firstHit (t :: ts) k s = firstHit ts k s := by
  simp [firstHit, h]

theorem firstHit_cons_some (h : best t k s = some v) : firstHit (t :: ts) k s = some v := by
  simp [firstHit, h]

/--
The shape both comparisons share: if whatever a source answers is not older than
what any later source holds, the first hit is the best version of all.
-/
theorem firstHit_eq_best_of {srcs : List (List (Version K V))} (hc : Coherent srcs.flatten)
    (hp : srcs.Pairwise (fun t u => ∀ v, best t k s = some v →
      ∀ w ∈ u, Visible k s w → w.seq ≤ v.seq)) :
    firstHit srcs k s = best srcs.flatten k s := by
  induction srcs with
  | nil => rfl
  | cons t ts ih =>
    obtain ⟨ht, hts⟩ := pairwise_cons.mp hp
    have hc' : Coherent ts.flatten := hc.subset fun e he => by
      rw [flatten_cons]; exact mem_append_right _ he
    cases hb : best t k s with
    | none =>
      rw [firstHit_cons_none hb, ih hc' hts]
      refine best_congr hc fun e he => ?_
      rw [flatten_cons, mem_append]
      have hnot : e ∉ t := fun hm => best_eq_none_iff.mp hb e hm he
      exact ⟨.inr, fun h => h.resolve_left hnot⟩
    | some v =>
      rw [firstHit_cons_some hb]
      obtain ⟨hm, hv, hmax⟩ := isBest_of_best hb
      refine (best_eq_of_isBest hc ⟨?_, hv, ?_⟩).symm
      · rw [flatten_cons]; exact mem_append_left _ hm
      · intro w hw hwv
        rw [flatten_cons, mem_append] at hw
        rcases hw with hw | hw
        · exact hmax w hw hwv
        · obtain ⟨u, hu, hwu⟩ := mem_flatten.mp hw
          exact ht u hu v hb w hwu hwv

/-- **Sources in order at `s` answer reads at `s` correctly.** -/
theorem firstHit_eq_best_at (hc : Coherent srcs.flatten) (hp : srcs.Pairwise (NewerAt s)) (k : K) :
    firstHit srcs k s = best srcs.flatten k s := by
  refine firstHit_eq_best_of hc (hp.imp fun {t u} htu v hb w hw hwv => ?_)
  obtain ⟨hm, hv, hmax⟩ := isBest_of_best hb
  obtain ⟨x, hx, hxv, hle⟩ := htu w hw hwv.2 ⟨v, hm, hv.1.trans hwv.1.symm, hv.2⟩
  exact Nat.le_trans hle (hmax x hx ⟨hxv.1.trans hwv.1, hxv.2⟩)

/-- **Sources in recency order answer every read correctly.** -/
theorem firstHit_eq_best (hc : Coherent srcs.flatten) (hp : srcs.Pairwise Recent) (k : K)
    (s : Nat) : firstHit srcs k s = best srcs.flatten k s :=
  firstHit_eq_best_at hc (hp.imp fun h => h.newerAt s) k

/-- **Sources ordered by their newest versions answer reads at the top correctly.** -/
theorem firstHit_eq_best_top (hc : Coherent srcs.flatten) (hp : srcs.Pairwise Newer) (k : K)
    (hs : ∀ e ∈ srcs.flatten, e.seq ≤ s) : firstHit srcs k s = best srcs.flatten k s := by
  refine firstHit_eq_best_at hc (hp.imp_of_mem fun {t u} ht _ h => h.newerAt fun v hv => ?_) k
  exact hs v (mem_flatten.mpr ⟨t, ht, hv⟩)

/-- A part that covers the whole answers for it. -/
theorem best_eq_of_covers (hc : Coherent fs) (hsub : ∀ e ∈ es, e ∈ fs) (hcov : Covers s es fs)
    (k : K) : best es k s = best fs k s := by
  cases hb : best es k s with
  | none =>
    refine (best_eq_none_iff.mpr fun w hw hv => ?_).symm
    obtain ⟨v, hv', hvis, _⟩ := hcov w hw hv.2
    exact best_eq_none_iff.mp hb v hv' ⟨hvis.1.trans hv.1, hvis.2⟩
  | some v =>
    obtain ⟨hm, hv, hmax⟩ := isBest_of_best hb
    refine (best_eq_of_isBest hc ⟨hsub v hm, hv, fun w hw hwv => ?_⟩).symm
    obtain ⟨x, hx, hxv, hle⟩ := hcov w hw hwv.2
    exact hle.trans (hmax x hx ⟨hxv.1.trans hwv.1, hxv.2⟩)

end Lib
