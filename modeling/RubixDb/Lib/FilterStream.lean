import RubixDb.Lib.Run

/-!
# Streams through a filter with a memory

A filter reads a stream item by item, keeps or drops each item according to what it
remembers, and may fail. What it does to the items of one kind can be read off a much
smaller machine, as long as only items of that kind touch its memory of the kind: how
many are kept is then a function of how many there are. What it holds, and when it gives
up for holding too much, is a fold over the items.
-/

namespace Lib

variable {ε σ α ν η : Type}

/-- Runs a stream, which may itself fail, through a filter. -/
def feed (step : σ → α → Except ε (Bool × σ)) : σ → List (Except ε α) → Except ε (List α × σ)
  | s, [] => .ok ([], s)
  | s, item :: items => do
    let a ← item
    let (kept, s) ← step s a
    let (out, s) ← feed step s items
    .ok (if kept then a :: out else out, s)

/-- How many of `n` items a machine keeps. -/
def emitted (turn : ν → Bool × ν) : ν → Nat → Nat
  | _, 0 => 0
  | v, n + 1 => (if (turn v).1 then 1 else 0) + emitted turn (turn v).2 n

/-- What a machine remembers after `n` items. -/
def after (turn : ν → Bool × ν) : ν → Nat → ν
  | v, 0 => v
  | v, n + 1 => after turn (turn v).2 n

section Filter

variable {step : σ → α → Except ε (Bool × σ)} {s s' : σ} {xs : List α} {out : List α}

theorem feed_cons {a : α} (h : feed step s (.ok a :: xs.map .ok) = .ok (out, s')) :
    ∃ kept t rest, step s a = .ok (kept, t) ∧ feed step t (xs.map .ok) = .ok (rest, s') ∧
      out = if kept then a :: rest else rest := by
  obtain ⟨_, ha, h⟩ := bind_eq_ok.mp h
  cases ha
  obtain ⟨⟨kept, t⟩, hstep, h⟩ := bind_eq_ok.mp h
  obtain ⟨⟨rest, u⟩, hrest, h⟩ := bind_eq_ok.mp h
  cases h
  exact ⟨kept, t, rest, hstep, hrest, rfl⟩

theorem feed_sublist {s : σ} {xs out : List α} (h : feed step s (xs.map .ok) = .ok (out, s')) :
    out.Sublist xs := by
  induction xs generalizing s out with
  | nil =>
    cases h
    exact .slnil
  | cons a xs ih =>
    obtain ⟨kept, t, rest, _, hrest, rfl⟩ := feed_cons h
    cases kept with
    | true => exact (ih hrest).cons_cons a
    | false => exact (ih hrest).cons a

/-- Filters that agree wherever both go on keep the same items. -/
theorem feed_agree {step' : σ → α → Except ε (Bool × σ)}
    (hagree : ∀ s a x y, step s a = .ok x → step' s a = .ok y → x = y) :
    ∀ {xs : List α} {s : σ} {r r' : List α × σ}, feed step s (xs.map .ok) = .ok r →
      feed step' s (xs.map .ok) = .ok r' → r = r' := by
  intro xs
  induction xs with
  | nil =>
    intro s r r' h h'
    cases h
    cases h'
    rfl
  | cons a xs ih =>
    rintro s ⟨out, u⟩ ⟨out', u'⟩ h h'
    obtain ⟨kept, t, rest, hstep, hrest, rfl⟩ := feed_cons h
    obtain ⟨kept', t', rest', hstep', hrest', rfl⟩ := feed_cons h'
    cases hagree s a _ _ hstep hstep'
    cases ih hrest hrest'
    rfl

/-! ## One kind of items -/

variable {hit : α → Bool} {view : σ → ν} {turn : ν → Bool × ν}

/-- An item of the kind takes the small machine one step, any other leaves it alone. -/
def Tracks (step : σ → α → Except ε (Bool × σ)) (hit : α → Bool) (view : σ → ν)
    (turn : ν → Bool × ν) : Prop :=
  ∀ s a kept t, step s a = .ok (kept, t) →
    if hit a then turn (view s) = (kept, view t) else view t = view s

theorem Tracks.countP_feed (htrack : Tracks step hit view turn) {s : σ} {xs out : List α}
    (h : feed step s (xs.map .ok) = .ok (out, s')) :
    out.countP hit = emitted turn (view s) (xs.countP hit) ∧
      view s' = after turn (view s) (xs.countP hit) := by
  induction xs generalizing s out with
  | nil =>
    cases h
    exact ⟨rfl, rfl⟩
  | cons a xs ih =>
    obtain ⟨kept, t, rest, hstep, hrest, rfl⟩ := feed_cons h
    obtain ⟨hcount, hview⟩ := ih hrest
    have ht := htrack s a kept t hstep
    by_cases hit_a : hit a
    · rw [if_pos hit_a] at ht
      rw [List.countP_cons_of_pos hit_a, emitted, after, ht, ← hcount, ← hview]
      cases kept with
      | true => exact ⟨by rw [if_pos rfl, List.countP_cons_of_pos hit_a, if_pos rfl]; omega, rfl⟩
      | false => exact ⟨by simp, rfl⟩
    · rw [if_neg hit_a] at ht
      rw [List.countP_cons_of_neg hit_a, ← ht, ← hcount, ← hview]
      cases kept with
      | true => exact ⟨by rw [if_pos rfl, List.countP_cons_of_neg hit_a], rfl⟩
      | false => exact ⟨rfl, rfl⟩

end Filter

/-! ## What a filter holds -/

/-- A filter whose holdings grow with every item and always fit. -/
structure Bounded (step : σ → α → Except ε (Bool × σ)) (inv : σ → Prop) (holds : σ → η)
    (grow : η → α → η) (fits : η → Prop) : Prop where
  holds_step : ∀ s a kept t, inv s → fits (holds s) → step s a = .ok (kept, t) →
    inv t ∧ holds t = grow (holds s) a ∧ fits (holds t)
  fits_of_grow : ∀ h a, fits (grow h a) → fits h

section Bounded

variable {step : σ → α → Except ε (Bool × σ)} {inv : σ → Prop} {holds : σ → η}
  {grow : η → α → η} {fits : η → Prop}

theorem Bounded.fits_of_foldl (hb : Bounded step inv holds grow fits) : ∀ {h : η} {xs : List α},
    fits (xs.foldl grow h) → fits h := by
  intro h xs
  induction xs generalizing h with
  | nil => exact id
  | cons a xs ih => exact fun hf => hb.fits_of_grow h a (ih hf)

/-- A filter that fails only when its holdings would not fit gets through a stream when
they fit in the end. -/
theorem Bounded.feed_ok (hb : Bounded step inv holds grow fits)
    (hok : ∀ s a, inv s → fits (grow (holds s) a) → ∃ r, step s a = .ok r) :
    ∀ {s : σ} {xs : List α}, inv s → fits (xs.foldl grow (holds s)) →
      ∃ r, feed step s (xs.map .ok) = .ok r := by
  intro s xs
  induction xs generalizing s with
  | nil => exact fun _ _ => ⟨_, rfl⟩
  | cons a xs ih =>
    intro hs hf
    have hgrown : fits (grow (holds s) a) := hb.fits_of_foldl hf
    obtain ⟨⟨kept, t⟩, hstep⟩ := hok s a hs hgrown
    obtain ⟨ht, hholds, _⟩ := hb.holds_step s a kept t hs (hb.fits_of_grow _ _ hgrown) hstep
    obtain ⟨⟨rest, u⟩, hrest⟩ := ih ht (by rw [hholds]; exact hf)
    refine ⟨(if kept then a :: rest else rest, u), ?_⟩
    rw [List.map_cons, feed, ok_bind, hstep, ok_bind]
    dsimp only
    rw [hrest, ok_bind]

theorem Bounded.holds_feed (hb : Bounded step inv holds grow fits) {s s' : σ} {xs out : List α}
    (hs : inv s) (hf : fits (holds s)) (h : feed step s (xs.map .ok) = .ok (out, s')) :
    inv s' ∧ holds s' = xs.foldl grow (holds s) ∧ fits (holds s') := by
  induction xs generalizing s s' out with
  | nil =>
    cases h
    exact ⟨hs, rfl, hf⟩
  | cons a xs ih =>
    obtain ⟨kept, t, rest, hstep, hrest, _⟩ := feed_cons h
    obtain ⟨ht, hholds, hfits⟩ := hb.holds_step s a kept t hs hf hstep
    obtain ⟨hs', hfold, hfits'⟩ := ih ht hfits hrest
    exact ⟨hs', by rw [hfold, hholds, List.foldl_cons], hfits'⟩

end Bounded

end Lib
