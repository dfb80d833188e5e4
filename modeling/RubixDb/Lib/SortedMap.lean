import Mathlib

/-!
# Ordered maps as sorted lists

A list kept strictly increasing in `key` is an ordered map: at most one element per
key. `insertBy` is the map's insertion, replacing an element of equal key.
-/

namespace Lib

open List

variable {α κ : Type} [LinearOrder κ] {key : α → κ} {l : List α} {x e : α}

/-- Strictly increasing in `key`. -/
def SortedBy (key : α → κ) (l : List α) : Prop := l.Pairwise fun a b => key a < key b

/-- Insert `e`, replacing the element of equal key if there is one. -/
def insertBy (key : α → κ) (e : α) : List α → List α
  | [] => [e]
  | x :: xs =>
    if key e < key x then e :: x :: xs
    else if key x < key e then x :: insertBy key e xs
    else e :: xs

/-- An element is found under its key only. -/
theorem SortedBy.eq_of_key_eq (h : SortedBy key l) {y : α} (hx : x ∈ l) (hy : y ∈ l)
    (hk : key x = key y) : x = y := by
  induction l with
  | nil => exact absurd hx (by simp)
  | cons a l ih =>
    obtain ⟨ha, hl⟩ := pairwise_cons.mp h
    rcases mem_cons.mp hx with hxa | hxl
    · rcases mem_cons.mp hy with hya | hyl
      · rw [hxa, hya]
      · exact absurd (hxa ▸ hk) (ha y hyl).ne
    · rcases mem_cons.mp hy with hya | hyl
      · exact absurd (hya ▸ hk.symm) (ha x hxl).ne
      · exact ih hl hxl hyl

/-- Insertion puts `e` in the place of what has its key. -/
theorem insertBy_perm (h : SortedBy key l) :
    (insertBy key e l).Perm (e :: l.filter fun x => key x ≠ key e) := by
  induction l with
  | nil => exact .refl _
  | cons a l ih =>
    obtain ⟨ha, hl⟩ := pairwise_cons.mp h
    unfold insertBy
    split
    · rename_i hea
      have hne : ∀ y ∈ a :: l, key y ≠ key e := by
        intro y hy
        rcases mem_cons.mp hy with rfl | hy
        · exact hea.ne'
        · exact (hea.trans (ha y hy)).ne'
      rw [filter_eq_self.mpr (by simpa using hne)]
    · split
      · rename_i hae
        rw [filter_cons_of_pos (by simpa using hae.ne)]
        exact ((ih hl).cons a).trans (.swap e a _)
      · rename_i hea hae
        have heq : key a = key e := le_antisymm (not_lt.mp hea) (not_lt.mp hae)
        have hne : ∀ y ∈ l, key y ≠ key e := fun y hy => heq ▸ (ha y hy).ne'
        rw [filter_cons_of_neg (by simpa using heq), filter_eq_self.mpr (by simpa using hne)]

theorem mem_insertBy (h : SortedBy key l) :
    x ∈ insertBy key e l ↔ x = e ∨ x ∈ l ∧ key x ≠ key e := by
  rw [(insertBy_perm h).mem_iff, mem_cons, mem_filter, decide_eq_true_iff]

theorem keys_insertBy (h : SortedBy key l) (k : κ) :
    k ∈ (insertBy key e l).map key ↔ k ∈ l.map key ∨ k = key e := by
  simp only [mem_map, mem_insertBy h]
  constructor
  · rintro ⟨x, rfl | ⟨hx, -⟩, rfl⟩
    · exact .inr rfl
    · exact .inl ⟨x, hx, rfl⟩
  · intro hk
    by_cases hnew : k = key e
    · exact ⟨e, .inl rfl, hnew.symm⟩
    · rcases hk with ⟨x, hx, rfl⟩ | hk
      · exact ⟨x, .inr ⟨hx, hnew⟩, rfl⟩
      · exact absurd hk hnew

/-- The element that an insertion replaces, or nothing. -/
def replacedBy (key : α → κ) (e : α) (l : List α) : List α := l.filter fun x => key x = key e

theorem replacedBy_eq_nil : replacedBy key e l = [] ↔ key e ∉ l.map key := by
  simp [replacedBy, filter_eq_nil_iff]

theorem sum_insertBy (f : α → Nat) (h : SortedBy key l) :
    ((insertBy key e l).map f).sum + ((replacedBy key e l).map f).sum = (l.map f).sum + f e := by
  have hnew := ((insertBy_perm (e := e) h).map f).sum_eq
  have hold := ((filter_append_perm (fun x => decide (key x = key e)) l).map f).sum_eq
  simp only [map_cons, sum_cons, map_append, sum_append, ne_eq,
    decide_not] at hnew hold
  rw [replacedBy]
  omega

/-- Insertion keeps the order. -/
theorem SortedBy.insertBy (h : SortedBy key l) (e : α) : SortedBy key (insertBy key e l) := by
  induction l with
  | nil => exact pairwise_singleton _ _
  | cons a l ih =>
    obtain ⟨ha, hl⟩ := pairwise_cons.mp h
    unfold Lib.insertBy
    split
    · rename_i hea
      refine pairwise_cons.mpr ⟨?_, h⟩
      intro y hy
      rcases mem_cons.mp hy with rfl | hy
      · exact hea
      · exact hea.trans (ha y hy)
    · split
      · rename_i hae
        refine pairwise_cons.mpr ⟨?_, ih hl⟩
        intro y hy
        rcases (mem_insertBy hl).mp hy with rfl | hy
        · exact hae
        · exact ha y hy.1
      · rename_i hea hae
        refine pairwise_cons.mpr ⟨?_, hl⟩
        intro y hy
        exact (le_antisymm (not_lt.mp hea) (not_lt.mp hae) : key a = key e) ▸ ha y hy

end Lib
