import Mathlib

/-!
# A file that is appended to and synced

The items of the file in the order they were written, and how many of them, from the
front, a successful sync has covered. A sync that began when the file held `n` items
covers those.
-/

namespace Lib

structure SyncedLog (α : Type) where
  items : List α := []
  covered : Nat := 0
  covered_le : covered ≤ items.length := by simp

namespace SyncedLog

variable {α : Type} {a : α} {l : SyncedLog α} {n : Nat} {as : List α}

/-- What no sync has covered. -/
def uncovered (l : SyncedLog α) : List α := l.items.drop l.covered

/-- What a sync has covered. -/
def safe (l : SyncedLog α) : List α := l.items.take l.covered

def append (l : SyncedLog α) (as : List α) : SyncedLog α where
  items := l.items ++ as
  covered := l.covered
  covered_le := by
    rw [List.length_append]
    exact Nat.le_trans l.covered_le (Nat.le_add_right _ _)

/-- A sync that began at `n` items. -/
def syncTo (l : SyncedLog α) (n : Nat) : SyncedLog α where
  items := l.items
  covered := max l.covered (min n l.items.length)
  covered_le := max_le l.covered_le (Nat.min_le_right _ _)

def syncAll (l : SyncedLog α) : SyncedLog α := l.syncTo l.items.length

theorem mem_items : a ∈ l.items ↔ a ∈ l.safe ∨ a ∈ l.uncovered := by
  unfold safe uncovered
  rw [← List.mem_append, List.take_append_drop]

theorem mem_of_uncovered (h : a ∈ l.uncovered) : a ∈ l.items := List.mem_of_mem_drop h

theorem uncovered_append : (l.append as).uncovered = l.uncovered ++ as := by
  exact List.drop_append_of_le_length l.covered_le

/-- What stays uncovered was uncovered before and was written after the sync began. -/
theorem mem_uncovered_syncTo (h : a ∈ (l.syncTo n).uncovered) :
    a ∈ l.uncovered ∧ a ∈ l.items.drop n := by
  have hdrop : a ∈ l.items.drop (max l.covered (min n l.items.length)) := h
  have hle : ∀ k, k ≤ max l.covered (min n l.items.length) → a ∈ l.items.drop k := by
    intro k hk
    obtain ⟨d, hd⟩ := Nat.exists_eq_add_of_le hk
    rw [hd, ← List.drop_drop] at hdrop
    exact List.mem_of_mem_drop hdrop
  refine ⟨hle _ (Nat.le_max_left _ _), ?_⟩
  by_cases hn : n ≤ l.items.length
  · refine hle n ?_
    rw [Nat.min_eq_left hn]
    exact Nat.le_max_right _ _
  · -- a sync from beyond the end covers everything
    rw [Nat.min_eq_right (by omega), Nat.max_eq_right l.covered_le, List.drop_length] at hdrop
    cases hdrop

@[simp] theorem uncovered_syncAll : l.syncAll.uncovered = [] := by
  refine List.eq_nil_iff_forall_not_mem.mpr fun a ha => ?_
  have hdrop := (mem_uncovered_syncTo ha).2
  rw [List.drop_length] at hdrop
  cases hdrop

end SyncedLog

end Lib
