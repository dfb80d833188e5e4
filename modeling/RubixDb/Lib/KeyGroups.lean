import Mathlib

/-!
# Merging key-sorted cursors, one key at a time

A k-way merge over cursors sorted by key repeatedly takes the least key at any
cursor's head and pulls every element of that key off every cursor. `keyGroups` is
that loop: it yields, in ascending key order, each key with one group of elements
per cursor. What is done with a group (retain some versions, pick one winner) is
left to the caller.

The specification is that nothing is missed and nothing is mixed: the group taken
from a cursor is all the cursor has under that key.
-/

namespace Lib

open List

variable {α κ : Type} [LinearOrder κ] {key : α → κ} {k : κ} {cs : List (List α)} {e : α}

/-- The least key at the head of a cursor. -/
def minKey (key : α → κ) : List (List α) → Option κ
  | [] => none
  | [] :: cs => minKey key cs
  | (e :: _) :: cs =>
    match minKey key cs with
    | none => some (key e)
    | some k => if key e ≤ k then some (key e) else some k

/-- Take the least key's elements off every cursor until all are exhausted. -/
def keyGroups (key : α → κ) : Nat → List (List α) → List (κ × List (List α))
  | 0, _ => []
  | fuel + 1, cs =>
    match minKey key cs with
    | none => []
    | some k =>
      (k, cs.map fun c => c.takeWhile fun e => key e = k) ::
        keyGroups key fuel (cs.map fun c => c.dropWhile fun e => key e = k)

/-- How many elements the cursors still hold; enough fuel for `keyGroups`. -/
def cursorTotal (cs : List (List α)) : Nat := (cs.map List.length).sum

/-- Every cursor is sorted by key. -/
def CursorsSorted (key : α → κ) (cs : List (List α)) : Prop :=
  ∀ c ∈ cs, c.Pairwise fun a b => key a ≤ key b

theorem minKey_eq_none_iff : ∀ {cs : List (List α)}, minKey key cs = none ↔ cs.flatten = [] := by
  intro cs
  induction cs with
  | nil => simp [minKey]
  | cons c cs ih =>
    cases c with
    | nil => simpa [minKey] using ih
    | cons e c =>
      unfold minKey
      cases minKey key cs with
      | none => simp
      | some k => simp only []; split <;> simp

/-- The least key is at some head, and no cursor holds a smaller one. -/
theorem minKey_spec {cs : List (List α)} {k : κ} (hs : CursorsSorted key cs)
    (h : minKey key cs = some k) :
    (∃ c ∈ cs, ∃ e, c.head? = some e ∧ key e = k) ∧ ∀ e ∈ cs.flatten, k ≤ key e := by
  induction cs generalizing k with
  | nil => cases h
  | cons c cs ih =>
    have hs' : CursorsSorted key cs := fun d hd => hs d (mem_cons_of_mem _ hd)
    cases c with
    | nil =>
      obtain ⟨⟨d, hd, hhead⟩, hle⟩ := ih hs' (by simpa [minKey] using h)
      exact ⟨⟨d, mem_cons_of_mem _ hd, hhead⟩, by simpa using hle⟩
    | cons e c =>
      have hc : ∀ x ∈ e :: c, key e ≤ key x := by
        intro x hx
        rcases mem_cons.mp hx with rfl | hx
        · exact le_refl _
        · exact (pairwise_cons.mp (hs _ (by simp))).1 x hx
      unfold minKey at h
      cases hm : minKey key cs with
      | none =>
        rw [hm] at h
        obtain rfl : key e = k := Option.some.inj h
        refine ⟨⟨e :: c, by simp, e, rfl, rfl⟩, ?_⟩
        rw [flatten_cons, minKey_eq_none_iff.mp hm, append_nil]
        exact hc
      | some k' =>
        rw [hm] at h
        obtain ⟨⟨d, hd, hhead⟩, hle⟩ := ih hs' hm
        simp only at h
        split_ifs at h with hek
        · obtain rfl : key e = k := Option.some.inj h
          refine ⟨⟨e :: c, by simp, e, rfl, rfl⟩, ?_⟩
          intro x hx
          rcases mem_append.mp (flatten_cons ▸ hx) with hx | hx
          · exact hc x hx
          · exact hek.trans (hle x hx)
        · obtain rfl : k' = k := Option.some.inj h
          refine ⟨⟨d, mem_cons_of_mem _ hd, hhead⟩, ?_⟩
          intro x hx
          rcases mem_append.mp (flatten_cons ▸ hx) with hx | hx
          · exact (not_le.mp hek).le.trans (hc x hx)
          · exact hle x hx

/-! ## One round -/

/-- Where `k` is the least key, taking from the head takes all of `k` and leaves everything of
another key. -/
theorem takeWhile_dropWhile_eq (key : α → κ) {c : List α}
    (hs : c.Pairwise fun a b => key a ≤ key b) (hk : ∀ e ∈ c, k ≤ key e) :
    (c.takeWhile fun e => key e = k) = (c.filter fun e => key e = k) ∧
      (c.dropWhile fun e => key e = k) = c.filter fun e => key e ≠ k := by
  induction c with
  | nil => exact ⟨rfl, rfl⟩
  | cons e c ih =>
    obtain ⟨he, hc⟩ := pairwise_cons.mp hs
    by_cases hek : key e = k
    · obtain ⟨htake, hdrop⟩ := ih hc fun x hx => hk x (mem_cons_of_mem _ hx)
      simp [hek, htake, hdrop]
    · have hlt : k < key e := lt_of_le_of_ne (hk e (by simp)) (Ne.symm hek)
      have hne : ∀ x ∈ c, key x ≠ k := fun x hx => (hlt.trans_le (he x hx)).ne'
      have hnone : (c.filter fun x => key x = k) = [] := by simpa [filter_eq_nil_iff] using hne
      have hall : (c.filter fun x => key x ≠ k) = c := by simpa [filter_eq_self] using hne
      simpa [hek, hnone] using hall.symm

/-- The cursors after the round for `k`. -/
def dropKey (key : α → κ) (k : κ) (cs : List (List α)) : List (List α) :=
  cs.map fun c => c.filter fun e => key e ≠ k

theorem mem_dropKey : e ∈ (dropKey key k cs).flatten ↔ e ∈ cs.flatten ∧ key e ≠ k := by
  simp only [dropKey, mem_flatten, mem_map]
  constructor
  · rintro ⟨_, ⟨c, hc, rfl⟩, he⟩
    rw [mem_filter, decide_eq_true_iff] at he
    exact ⟨⟨c, hc, he.1⟩, he.2⟩
  · rintro ⟨⟨c, hc, he⟩, hk⟩
    exact ⟨_, ⟨c, hc, rfl⟩, mem_filter.mpr ⟨he, decide_eq_true hk⟩⟩

theorem CursorsSorted.dropKey (h : CursorsSorted key cs) (k : κ) :
    CursorsSorted key (dropKey key k cs) := by
  intro c hc
  obtain ⟨d, hd, rfl⟩ := mem_map.mp hc
  exact (h d hd).filter _

/-- A round over cursors with least key `k`, in terms of filters. -/
theorem keyGroups_succ {fuel : Nat} (hs : CursorsSorted key cs) (hm : minKey key cs = some k) :
    keyGroups key (fuel + 1) cs =
      (k, cs.map fun c => c.filter fun e => key e = k) ::
        keyGroups key fuel (dropKey key k cs) := by
  have hle := (minKey_spec hs hm).2
  have hck : ∀ c ∈ cs, ∀ e ∈ c, k ≤ key e :=
    fun c hc e he => hle e (mem_flatten.mpr ⟨c, hc, he⟩)
  have htake : (cs.map fun c => c.takeWhile fun e => key e = k) =
      cs.map fun c => c.filter fun e => key e = k :=
    map_congr_left fun c hc => (takeWhile_dropWhile_eq _ (hs c hc) (hck c hc)).1
  have hdrop : (cs.map fun c => c.dropWhile fun e => key e = k) = dropKey key k cs :=
    map_congr_left fun c hc => (takeWhile_dropWhile_eq _ (hs c hc) (hck c hc)).2
  rw [keyGroups, hm]
  simp only [htake, hdrop]

theorem cursorTotal_dropKey_le (k : κ) (cs : List (List α)) :
    cursorTotal (dropKey key k cs) ≤ cursorTotal cs := by
  induction cs with
  | nil => exact Nat.le_refl _
  | cons c cs ih =>
    exact Nat.add_le_add (length_filter_le _ _) ih

/-- Every round uses up at least one element, so the fuel lasts. -/
theorem cursorTotal_dropKey_lt (he : e ∈ cs.flatten)
    (hk : key e = k) : cursorTotal (dropKey key k cs) < cursorTotal cs := by
  induction cs with
  | nil => exact absurd he (by simp)
  | cons c cs ih =>
    have hle : cursorTotal (dropKey key k cs) ≤ cursorTotal cs := cursorTotal_dropKey_le k cs
    simp only [cursorTotal, dropKey, map_cons, sum_cons] at ih hle ⊢
    rcases mem_append.mp (flatten_cons ▸ he) with he | he
    · have hlt : (c.filter fun x => key x ≠ k).length < c.length :=
        length_filter_lt_length_iff_exists.mpr ⟨e, he, by simpa using hk⟩
      omega
    · have := ih he
      have := length_filter_le (fun x => key x ≠ k) c
      omega

/-! ## The whole loop -/

/-- **What the loop yields.** Each key held by some cursor, once, in ascending order,
with everything each cursor has under it. -/
structure GroupsSpec (key : α → κ) (cs : List (List α)) (out : List (κ × List (List α))) :
    Prop where
  ascending : out.Pairwise fun a b => a.1 < b.1
  group : ∀ g ∈ out, g.2 = cs.map fun c => c.filter fun e => key e = g.1
  held : ∀ g ∈ out, ∃ e ∈ cs.flatten, key e = g.1
  complete : ∀ e ∈ cs.flatten, ∃ g ∈ out, g.1 = key e

/-- The rounds of the loop, for what is to be shown of the cursors and the groups. -/
theorem keyGroups_induction {P : List (List α) → List (κ × List (List α)) → Prop}
    (hnil : ∀ cs : List (List α), cs.flatten = [] → P cs [])
    (hround : ∀ {cs k out}, (∃ x ∈ cs.flatten, key x = k) → (∀ e ∈ cs.flatten, k ≤ key e) →
      P (dropKey key k cs) out →
      P cs ((k, cs.map fun c => c.filter fun e => key e = k) :: out))
    {fuel : Nat} {cs : List (List α)}
    (hs : CursorsSorted key cs) (hf : cursorTotal cs ≤ fuel) : P cs (keyGroups key fuel cs) := by
  induction fuel generalizing cs with
  | zero =>
    refine hnil cs ?_
    rw [← length_eq_zero_iff, length_flatten]
    exact Nat.le_zero.mp hf
  | succ fuel ih =>
    cases hm : minKey key cs with
    | none =>
      rw [keyGroups, hm]
      exact hnil cs (minKey_eq_none_iff.mp hm)
    | some k =>
      obtain ⟨⟨c, hc, x, hhead, hxk⟩, hle⟩ := minKey_spec hs hm
      have hx : x ∈ cs.flatten := mem_flatten.mpr ⟨c, hc, mem_of_mem_head? hhead⟩
      have hlt := cursorTotal_dropKey_lt hx hxk
      rw [keyGroups_succ hs hm]
      exact hround ⟨x, hx, hxk⟩ hle (ih (hs.dropKey k) (by omega))

theorem keyGroups_spec {fuel : Nat} (hs : CursorsSorted key cs) (hf : cursorTotal cs ≤ fuel) :
    GroupsSpec key cs (keyGroups key fuel cs) := by
  refine keyGroups_induction (fun cs hnil => ?_) (fun {cs k out} hheld hle ih => ?_) hs hf
  · exact ⟨List.Pairwise.nil, by simp, by simp, by simp [hnil]⟩
  · -- every later group is over a key the first round left, so above `k`
    have hgt : ∀ g ∈ out, k < g.1 := by
      intro g hg
      obtain ⟨e, he, hek⟩ := ih.held g hg
      obtain ⟨he, hne⟩ := mem_dropKey.mp he
      exact hek ▸ lt_of_le_of_ne (hle e he) (Ne.symm hne)
    refine ⟨pairwise_cons.mpr ⟨hgt, ih.ascending⟩, ?_, ?_, ?_⟩
    · intro g hg
      rcases mem_cons.mp hg with rfl | hg
      · rfl
      · rw [ih.group g hg]
        simp only [dropKey, map_map]
        refine map_congr_left fun d _ => ?_
        simp only [Function.comp, filter_filter]
        refine filter_congr fun e _ => ?_
        have := (hgt g hg).ne'
        by_cases hek : key e = g.1 <;> simp [hek, this]
    · intro g hg
      rcases mem_cons.mp hg with rfl | hg
      · exact hheld
      · obtain ⟨e, he, hek⟩ := ih.held g hg
        exact ⟨e, (mem_dropKey.mp he).1, hek⟩
    · intro e he
      by_cases hek : key e = k
      · exact ⟨_, mem_cons_self, hek.symm⟩
      · obtain ⟨g, hg, hge⟩ := ih.complete e (mem_dropKey.mpr ⟨he, hek⟩)
        exact ⟨g, mem_cons_of_mem _ hg, hge⟩

/-- **Nothing is lost and nothing is doubled:** the groups together are the cursors. -/
theorem keyGroups_perm {fuel : Nat} (hs : CursorsSorted key cs) (hf : cursorTotal cs ≤ fuel) :
    ((keyGroups key fuel cs).flatMap fun g => g.2.flatten).Perm cs.flatten := by
  refine keyGroups_induction (P := fun cs out => (out.flatMap fun g => g.2.flatten).Perm cs.flatten)
    (fun cs hnil => ?_) (fun {cs k out} _ _ ih => ?_) hs hf
  · rw [hnil]
    exact List.Perm.refl _
  · have hrest : (dropKey key k cs).flatten = cs.flatten.filter fun e => !decide (key e = k) := by
      rw [dropKey, filter_flatten]
      simp only [ne_eq, decide_not]
    rw [flatMap_cons]
    refine (ih.append_left _).trans ?_
    rw [hrest, ← filter_flatten]
    exact filter_append_perm _ _

end Lib
