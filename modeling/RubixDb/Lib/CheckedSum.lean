import Mathlib

/-!
# Results that do not depend on the order of their input

A function of a list is order free at a list when every order of the list gives the same
result. Dropping what is not there and dropping what was there before both carry over to
every order, so that a fold behind such a filter can be judged on what reaches it.

The sum of a list of integers whose every partial sum is checked against two bounds is not
order free in general. It is when the positive elements alone and the negative elements
alone stay within the bounds, for then every partial sum does, and when no order gets to
the end, which for elements within the bounds means that the total is not.
-/

namespace Lib

open List

/-! ## Orders of a list -/

variable {f : List α → β} {xs ys zs : List α}

/-- Every order of `xs` gives the same result. -/
def OrderFree {α β : Type _} (f : List α → β) (xs : List α) : Prop :=
  ∀ ys zs, ys.Perm xs → zs.Perm xs → f ys = f zs

theorem OrderFree.of_perm (h : ∀ ys zs, ys.Perm zs → f ys = f zs) (xs : List α) : OrderFree f xs :=
  fun ys zs hys hzs => h ys zs (hys.trans hzs.symm)

/-- A filter that takes orders to orders, and every order of what it lets through from one. -/
theorem OrderFree.comp_iff {f : List β → γ} {g : List α → List β}
    (hto : ∀ ys, ys.Perm xs → (g ys).Perm (g xs))
    (hfrom : ∀ zs, zs.Perm (g xs) → ∃ ys, ys.Perm xs ∧ g ys = zs) :
    OrderFree (fun ys => f (g ys)) xs ↔ OrderFree f (g xs) := by
  constructor
  · intro h us vs hus hvs
    obtain ⟨ys, hys, rfl⟩ := hfrom us hus
    obtain ⟨zs, hzs, rfl⟩ := hfrom vs hvs
    exact h ys zs hys hzs
  · intro h ys zs hys hzs
    exact h _ _ (hto ys hys) (hto zs hzs)

theorem OrderFree.congr {g : List α → β} (h : ∀ ys, ys.Perm xs → f ys = g ys) :
    OrderFree f xs ↔ OrderFree g xs := by
  constructor
  · intro hf ys zs hys hzs
    rw [← h ys hys, ← h zs hzs]
    exact hf ys zs hys hzs
  · intro hg ys zs hys hzs
    rw [h ys hys, h zs hzs]
    exact hg ys zs hys hzs

theorem OrderFree.perm_iff (h : xs.Perm ys) : OrderFree f xs ↔ OrderFree f ys := by
  constructor
  · intro hf us vs hus hvs
    exact hf us vs (hus.trans h.symm) (hvs.trans h.symm)
  · intro hf us vs hus hvs
    exact hf us vs (hus.trans h) (hvs.trans h)

theorem OrderFree.map_iff {f : List β → γ} {g : α → β} :
    OrderFree (fun ys => f (ys.map g)) xs ↔ OrderFree f (xs.map g) := by
  refine OrderFree.comp_iff (fun _ h => h.map g) fun zs h => ?_
  have hcomp := congrFun (congrFun (eq_map_comp_perm g) zs) xs
  obtain ⟨ys, rfl, hys⟩ := hcomp.mpr h
  exact ⟨ys, hys, rfl⟩

/-- A fold that can fail and whose steps commute. -/
theorem foldlM_perm {step : σ → α → Option σ} {P : σ → Prop} {Q : α → Prop}
    (hkeep : ∀ {s t x}, P s → Q x → step s x = some t → P t)
    (hcomm : ∀ {s x y}, P s → Q x → Q y → (step s x).bind (step · y) = (step s y).bind (step · x))
    (h : xs.Perm ys) (hxs : ∀ x ∈ xs, Q x) {s : σ} (hs : P s) :
    xs.foldlM step s = ys.foldlM step s := by
  induction h generalizing s with
  | nil => rfl
  | cons x _ ih =>
    rw [foldlM_cons, foldlM_cons]
    cases hx : step s x with
    | none => rfl
    | some t =>
      exact ih (fun y hy => hxs y (mem_cons_of_mem _ hy))
        (hkeep hs (hxs x (mem_cons_self ..)) hx)
  | swap x y zs =>
    have hswap := hcomm hs (hxs y (mem_cons_self ..))
      (hxs x (mem_cons_of_mem _ (mem_cons_self ..)))
    simp only [foldlM_cons, ← bind_assoc]
    exact congrArg (· >>= (zs.foldlM step ·)) hswap
  | trans h₁ _ ih₁ ih₂ =>
    rw [ih₁ hxs hs, ih₂ (fun y hy => hxs y (h₁.mem_iff.mpr hy)) hs]

/-! ## What is there -/

theorem reduceOption_perm {xs ys : List (Option α)} (h : xs.Perm ys) :
    xs.reduceOption.Perm ys.reduceOption := h.filterMap id

/-- What is there, in any order, with what is not there behind it. -/
theorem exists_order_reduceOption {xs : List (Option α)}
    (h : zs.Perm xs.reduceOption) : ∃ ys : List (Option α), ys.Perm xs ∧ ys.reduceOption = zs := by
  refine ⟨zs.map some ++ xs.filter Option.isNone, ?_, ?_⟩
  · refine ((h.map some).append_right _).trans ?_
    clear h
    induction xs with
    | nil => simp
    | cons x xs ih =>
      cases x with
      | none => simpa using perm_middle.trans (ih.cons none)
      | some x => simpa using ih
  · have hnone : (xs.filter Option.isNone).reduceOption = [] := by
      simp [List.reduceOption, filterMap_eq_nil_iff]
    have hsome : (zs.map some).reduceOption = zs := by
      simp [List.reduceOption, filterMap_map]
    rw [reduceOption_append, hsome, hnone, append_nil]

theorem OrderFree.reduceOption_iff {xs : List (Option α)} :
    OrderFree (fun ys => f ys.reduceOption) xs ↔ OrderFree f xs.reduceOption :=
  OrderFree.comp_iff (fun _ h => reduceOption_perm h) fun _ h => exists_order_reduceOption h

/-! ## What was not there before -/

section Firsts

variable [DecidableEq α]

/-- The elements that are neither in `seen` nor came before. -/
def firsts (seen : List α) : List α → List α
  | [] => []
  | x :: xs => if seen.contains x then firsts seen xs else x :: firsts (x :: seen) xs

theorem mem_firsts {x : α} : ∀ {xs seen : List α}, x ∈ firsts seen xs ↔ x ∈ xs ∧ x ∉ seen
  | [], seen => by simp [firsts]
  | y :: xs, seen => by
    rw [firsts]
    by_cases hy : y ∈ seen
    · rw [if_pos (contains_iff_mem.mpr hy), mem_firsts, mem_cons]
      constructor
      · rintro ⟨hx, hseen⟩
        exact ⟨.inr hx, hseen⟩
      · rintro ⟨rfl | hx, hseen⟩
        · exact absurd hy hseen
        · exact ⟨hx, hseen⟩
    · rw [if_neg (mt contains_iff_mem.mp hy), mem_cons, mem_cons, mem_firsts, mem_cons]
      by_cases hxy : x = y
      · subst hxy
        simp [hy]
      · simp [hxy]

theorem nodup_firsts : ∀ (xs seen : List α), (firsts seen xs).Nodup
  | [], _ => nodup_nil
  | x :: xs, seen => by
    rw [firsts]
    split
    · exact nodup_firsts xs seen
    · refine nodup_cons.mpr ⟨?_, nodup_firsts xs _⟩
      intro h
      exact (mem_firsts.mp h).2 (mem_cons_self ..)

theorem firsts_perm (h : xs.Perm ys) : (firsts [] xs).Perm (firsts [] ys) := by
  rw [perm_ext_iff_of_nodup (nodup_firsts xs []) (nodup_firsts ys [])]
  intro x
  rw [mem_firsts, mem_firsts, h.mem_iff]

theorem firsts_perm_dedup (xs : List α) : (firsts [] xs).Perm xs.dedup := by
  rw [perm_ext_iff_of_nodup (nodup_firsts xs []) xs.nodup_dedup]
  intro x
  rw [mem_firsts]
  simp

theorem firsts_eq_nil {seen : List α} (h : ∀ x ∈ xs, x ∈ seen) : firsts seen xs = [] := by
  induction xs with
  | nil => rfl
  | cons x xs ih =>
    rw [firsts, if_pos (contains_iff_mem.mpr (h x (mem_cons_self ..)))]
    exact ih fun y hy => h y (mem_cons_of_mem _ hy)

/-- Different elements come through, and behind them nothing that repeats them. -/
theorem firsts_append : ∀ {zs seen rest : List α}, zs.Nodup → (∀ z ∈ zs, z ∉ seen) →
    (∀ x ∈ rest, x ∈ zs ∨ x ∈ seen) → firsts seen (zs ++ rest) = zs
  | [], seen, rest, _, _, hrest => by
    refine firsts_eq_nil fun x hx => ?_
    rcases hrest x hx with h | h
    · cases h
    · exact h
  | z :: zs, seen, rest, hnodup, hseen, hrest => by
    obtain ⟨hz, hzs⟩ := nodup_cons.mp hnodup
    rw [cons_append, firsts,
      if_neg (mt contains_iff_mem.mp (hseen z (mem_cons_self ..)))]
    refine congrArg (z :: ·) (firsts_append hzs ?_ ?_)
    · intro y hy hmem
      rcases mem_cons.mp hmem with rfl | hmem
      · exact hz hy
      · exact hseen y (mem_cons_of_mem _ hy) hmem
    · intro x hx
      rcases hrest x hx with h | h
      · rcases mem_cons.mp h with rfl | h
        · exact .inr (mem_cons_self ..)
        · exact .inl h
      · exact .inr (mem_cons_of_mem _ h)

theorem exists_order_firsts (h : zs.Perm (firsts [] xs)) :
    ∃ ys, ys.Perm xs ∧ firsts [] ys = zs := by
  have hnodup : zs.Nodup := h.nodup_iff.mpr (nodup_firsts xs [])
  have hmem : ∀ x, x ∈ zs ↔ x ∈ xs := by
    intro x
    rw [h.mem_iff, mem_firsts]
    simp
  have hsub : List.Subperm zs xs := subperm_of_subset hnodup fun x hx => (hmem x).mp hx
  obtain ⟨us, hus, hsub⟩ := hsub
  obtain ⟨rest, hrest⟩ := hsub.exists_perm_append
  refine ⟨zs ++ rest, (hus.symm.append_right rest).trans hrest.symm,
    firsts_append hnodup (by simp) ?_⟩
  intro x hx
  exact .inl ((hmem x).mpr (hrest.mem_iff.mpr (mem_append_right _ hx)))

theorem OrderFree.firsts_iff :
    OrderFree (fun ys => f (firsts [] ys)) xs ↔ OrderFree f xs.dedup := by
  rw [← OrderFree.perm_iff (firsts_perm_dedup xs)]
  exact OrderFree.comp_iff (fun _ h => firsts_perm h) fun _ h => exists_order_firsts h

end Firsts

/-! ## Sums checked at every step -/

def Within (lo hi n : Int) : Prop := lo ≤ n ∧ n ≤ hi

instance (lo hi n : Int) : Decidable (Within lo hi n) :=
  inferInstanceAs (Decidable (lo ≤ n ∧ n ≤ hi))

/-- `acc` and the elements, none as soon as a partial sum is beyond a bound. -/
def sumWithin (lo hi : Int) : Int → List Int → Option Int
  | acc, [] => some acc
  | acc, x :: xs => if Within lo hi (acc + x) then sumWithin lo hi (acc + x) xs else none

/-- The positive elements alone. -/
def positives : List Int → Int
  | [] => 0
  | x :: xs => max x 0 + positives xs

/-- The negative elements alone. -/
def negatives : List Int → Int
  | [] => 0
  | x :: xs => min x 0 + negatives xs

section CheckedSum

variable {lo hi : Int}

theorem signs_bounds : ∀ xs : List Int, 0 ≤ positives xs ∧ negatives xs ≤ 0
  | [] => ⟨le_refl 0, le_refl 0⟩
  | x :: xs => by
    have h := signs_bounds xs
    rw [positives, negatives]
    omega

theorem positives_filter (xs : List Int) :
    (xs.filter (0 < ·)).sum = positives xs ∧ (xs.filter (· < 0)).sum = negatives xs := by
  induction xs with
  | nil => exact ⟨rfl, rfl⟩
  | cons x xs ih =>
    rw [filter_cons, filter_cons, positives, negatives]
    rcases lt_trichotomy x 0 with hx | hx | hx
    · rw [if_neg (by simpa using hx.le), if_pos (by simpa using hx), sum_cons]
      omega
    · rw [if_neg (by simpa using hx.le), if_neg (by simpa using hx.ge)]
      omega
    · rw [if_pos (by simpa using hx), if_neg (by simpa using hx.le), sum_cons]
      omega

/-! ### What one order gives -/

theorem sumWithin_append (ys : List Int) : ∀ (xs : List Int) (acc : Int),
    sumWithin lo hi acc (xs ++ ys) = (sumWithin lo hi acc xs).bind (sumWithin lo hi · ys)
  | [], acc => rfl
  | x :: xs, acc => by
    rw [cons_append, sumWithin, sumWithin]
    split
    · exact sumWithin_append ys xs (acc + x)
    · rfl

/-- A sum that is reached is the sum, and is within the bounds. -/
theorem sumWithin_eq_some : ∀ {xs : List Int} {acc s : Int}, Within lo hi acc →
    sumWithin lo hi acc xs = some s → s = acc + xs.sum ∧ Within lo hi s
  | [], acc, s, hacc, h => by
    rw [sumWithin, Option.some.injEq] at h
    subst h
    exact ⟨by simp, hacc⟩
  | x :: xs, acc, s, hacc, h => by
    rw [sumWithin] at h
    split_ifs at h with hx
    obtain ⟨heq, hs⟩ := sumWithin_eq_some hx h
    exact ⟨by rw [heq, sum_cons]; omega, hs⟩

/-- Two orders agree as soon as both get to the end or neither does. -/
theorem sumWithin_eq_iff (hzero : Within lo hi 0) {xs ys : List Int} (h : xs.Perm ys) :
    sumWithin lo hi 0 xs = sumWithin lo hi 0 ys ↔
      (sumWithin lo hi 0 xs).isSome = (sumWithin lo hi 0 ys).isSome := by
  refine ⟨congrArg Option.isSome, fun hsome => ?_⟩
  cases hx : sumWithin lo hi 0 xs with
  | none =>
    rw [hx, eq_comm, Option.isSome_none, Option.isSome_eq_false_iff,
      Option.isNone_iff_eq_none] at hsome
    exact hsome.symm
  | some m =>
    rw [hx, eq_comm] at hsome
    obtain ⟨n, hn⟩ := Option.isSome_iff_exists.mp hsome
    obtain ⟨rfl, -⟩ := sumWithin_eq_some hzero hx
    obtain ⟨rfl, -⟩ := sumWithin_eq_some hzero hn
    rw [hn, h.sum_eq]

/-- When the elements of either sign alone keep within the bounds, every order does. -/
theorem sumWithin_of_signs : ∀ {xs : List Int} {acc : Int}, lo ≤ acc + negatives xs →
    acc + positives xs ≤ hi → sumWithin lo hi acc xs = some (acc + xs.sum)
  | [], acc, _, _ => by simp [sumWithin]
  | x :: xs, acc, hlo, hhi => by
    rw [negatives] at hlo
    rw [positives] at hhi
    have hsigns := signs_bounds xs
    rw [sumWithin, if_pos ⟨by omega, by omega⟩,
      sumWithin_of_signs (by omega) (by omega), sum_cons, add_assoc]

/-- There is an element to add next: one of the other sign than the sum, and when there is
none any element, for then the sum moves towards the total. -/
theorem exists_next {x : Int} {xs : List Int} {acc : Int}
    (hxs : ∀ y ∈ x :: xs, Within lo hi y) (hacc : Within lo hi acc)
    (htotal : Within lo hi (acc + (x :: xs).sum)) : ∃ y ∈ x :: xs, Within lo hi (acc + y) := by
  by_contra hnone
  have hout : ∀ y ∈ x :: xs, ¬Within lo hi (acc + y) := fun y hy h => hnone ⟨y, hy, h⟩
  have hx := hout x mem_cons_self
  rw [sum_cons] at htotal
  simp only [Within] at hxs hacc htotal hout hx
  rcases le_or_gt acc 0 with hsign | hsign
  · have hneg : ∀ y ∈ x :: xs, y ≤ 0 := by
      intro y hy
      have := hxs y hy
      have := hout y hy
      omega
    have hsum := sum_le_card_nsmul xs 0 fun y hy => hneg y (mem_cons_of_mem _ hy)
    rw [nsmul_zero] at hsum
    have := hneg x mem_cons_self
    omega
  · have hpos : ∀ y ∈ x :: xs, 0 ≤ y := by
      intro y hy
      have := hxs y hy
      have := hout y hy
      omega
    have hsum : 0 ≤ xs.sum := sum_nonneg fun y hy => hpos y (mem_cons_of_mem _ hy)
    have := hpos x mem_cons_self
    omega

/-- Elements within the bounds can be added in some order if their total is within them. -/
theorem exists_order_within : ∀ (n : Nat) {xs : List Int} {acc : Int}, xs.length = n →
    (∀ x ∈ xs, Within lo hi x) → Within lo hi acc → Within lo hi (acc + xs.sum) →
    ∃ ys, ys.Perm xs ∧ (sumWithin lo hi acc ys).isSome = true
  | 0, xs, acc, hlen, _, _, _ => by
    rw [length_eq_zero_iff] at hlen
    subst hlen
    exact ⟨[], .refl _, rfl⟩
  | n + 1, [], acc, hlen, _, _, _ => by cases hlen
  | n + 1, x :: xs, acc, hlen, hxs, hacc, htotal => by
    obtain ⟨y, hy, hwithin⟩ := exists_next hxs hacc htotal
    have hperm := perm_cons_erase hy
    have hsum : (x :: xs).sum = y + ((x :: xs).erase y).sum := by
      rw [hperm.sum_eq, sum_cons]
    have hlen' : ((x :: xs).erase y).length = n := by
      rw [length_erase_of_mem hy, hlen]
      rfl
    obtain ⟨ys, hys, hrun⟩ := exists_order_within n hlen'
      (fun z hz => hxs z (mem_of_mem_erase hz)) hwithin (by rwa [add_assoc, ← hsum])
    refine ⟨y :: ys, (hys.cons y).trans hperm.symm, ?_⟩
    rw [sumWithin, if_pos hwithin]
    exact hrun

/-! ### What all orders give -/

/-- The elements of either sign alone keep within the bounds; or the total is beyond them;
or an element is beyond them by itself, and no order gets to the end. -/
def Settled (lo hi : Int) (xs : List Int) : Prop :=
  (lo ≤ negatives xs ∧ positives xs ≤ hi) ∨ ¬Within lo hi xs.sum ∨
    ((∃ x ∈ xs, ¬Within lo hi x) ∧ ∀ ys, ys.Perm xs → sumWithin lo hi 0 ys = none)

theorem signs_perm {xs ys : List Int} (h : xs.Perm ys) :
    positives xs = positives ys ∧ negatives xs = negatives ys := by
  rw [← (positives_filter xs).1, ← (positives_filter xs).2, ← (positives_filter ys).1,
    ← (positives_filter ys).2]
  exact ⟨(h.filter _).sum_eq, (h.filter _).sum_eq⟩

/-- The elements that pass a test can come first. -/
theorem within_of_filter_first {xs : List Int} (p : Int → Bool) (hzero : Within lo hi 0)
    (h : ∀ ys, ys.Perm xs → (sumWithin lo hi 0 ys).isSome = true) :
    Within lo hi (xs.filter p).sum := by
  have hrun := h _ (filter_append_perm p xs)
  rw [sumWithin_append] at hrun
  cases hfirst : sumWithin lo hi 0 (xs.filter p) with
  | none =>
    rw [hfirst] at hrun
    cases hrun
  | some s =>
    obtain ⟨rfl, hs⟩ := sumWithin_eq_some hzero hfirst
    rwa [zero_add] at hs

theorem orderFree_sumWithin_iff (hzero : Within lo hi 0) (xs : List Int) :
    OrderFree (sumWithin lo hi 0) xs ↔ Settled lo hi xs := by
  constructor
  · intro hfree
    by_cases hsome : ∃ ys, ys.Perm xs ∧ (sumWithin lo hi 0 ys).isSome = true
    -- an order gets to the end, so all do, those that take one sign first among them
    · obtain ⟨ys, hys, hrun⟩ := hsome
      have hall : ∀ zs, zs.Perm xs → (sumWithin lo hi 0 zs).isSome = true := by
        intro zs hzs
        rw [hfree zs ys hzs hys]
        exact hrun
      have hpos := within_of_filter_first (0 < ·) hzero hall
      have hneg := within_of_filter_first (· < 0) hzero hall
      rw [(positives_filter xs).1] at hpos
      rw [(positives_filter xs).2] at hneg
      exact .inl ⟨hneg.1, hpos.2⟩
    · have hnone : ∀ ys, ys.Perm xs → sumWithin lo hi 0 ys = none := by
        intro ys hys
        rw [← Option.not_isSome_iff_eq_none]
        intro hrun
        exact hsome ⟨ys, hys, hrun⟩
      by_cases hxs : ∀ x ∈ xs, Within lo hi x
      · refine .inr (.inl fun htotal => hsome ?_)
        exact exists_order_within xs.length rfl hxs hzero (by rwa [zero_add])
      · have hout : ∃ x ∈ xs, ¬Within lo hi x := by simpa using hxs
        exact .inr (.inr ⟨hout, hnone⟩)
  · rintro (⟨hneg, hpos⟩ | htotal | ⟨-, hnone⟩) ys zs hys hzs
    · have hrun : ∀ us, us.Perm xs → sumWithin lo hi 0 us = some xs.sum := by
        intro us hus
        obtain ⟨hp, hn⟩ := signs_perm hus
        rw [sumWithin_of_signs (by omega) (by omega), zero_add, hus.sum_eq]
      rw [hrun ys hys, hrun zs hzs]
    · have hrun : ∀ us, us.Perm xs → sumWithin lo hi 0 us = none := by
        intro us hus
        cases h : sumWithin lo hi 0 us with
        | none => rfl
        | some s =>
          obtain ⟨rfl, hs⟩ := sumWithin_eq_some hzero h
          rw [zero_add, hus.sum_eq] at hs
          exact absurd hs htotal
      rw [hrun ys hys, hrun zs hzs]
    · rw [hnone ys hys, hnone zs hzs]

end CheckedSum

end Lib
