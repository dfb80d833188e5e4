import RubixDb.Proof.Apply

/-!
# What a MemTable counts

`insert` adds the size of the new entry and takes nothing off for an entry it replaces. So
`size_bytes` is the size of what the table holds exactly if no key is inserted twice under
one sequence number (`size_eq_content_iff`). A batch that names a key twice does that
(`batch_counts_twice`).
-/

namespace RubixDb.Proof

open Lib

def sizeOfAll (es : List Entry) : Nat := (es.map fun e => entrySize e.key e.value).sum

theorem sizeOfAll_eq_zero {es : List Entry} : sizeOfAll es = 0 ↔ es = [] := by
  cases es <;> simp [sizeOfAll, entrySize, entryOverhead]

/-- One call of `insert`. -/
def insertCall (m : MemTable) (call : Entry) : MemTable := m.insert call.key call.seq call.value

/-- What the calls leave: their keys, and a count that has lost nothing. -/
theorem size_foldl (maxSizeBytes : Nat) (calls : List Entry) :
    let m := calls.foldl insertCall (MemTable.new maxSizeBytes)
    (∀ k, k ∈ m.map.map entryKey ↔ k ∈ calls.map entryKey) ∧
      sizeOfAll m.map ≤ m.sizeBytes ∧
      (m.sizeBytes = sizeOfAll m.map ↔ (calls.map entryKey).Nodup) := by
  induction calls using List.reverseRecOn with
  | nil => simp [sizeOfAll, MemTable.new]
  | append_singleton calls call ih =>
    obtain ⟨hkeys, hle, hiff⟩ := ih
    rw [List.foldl_concat]
    set m := calls.foldl insertCall (MemTable.new maxSizeBytes)
    have hsize : (insertCall m call).sizeBytes = m.sizeBytes + entrySize call.key call.value := rfl
    have hcontent : sizeOfAll (insertCall m call).map + sizeOfAll (replacedBy entryKey call m.map) =
        sizeOfAll m.map + entrySize call.key call.value := sum_insertBy _ m.sorted
    refine ⟨fun k => ?_, by omega, ?_⟩
    · rw [List.map_append, List.mem_append, ← hkeys, List.map_singleton, List.mem_singleton]
      exact keys_insertBy m.sorted k
    · -- the count is right if it was and nothing is replaced
      have hsplit : (insertCall m call).sizeBytes = sizeOfAll (insertCall m call).map ↔
          m.sizeBytes = sizeOfAll m.map ∧ sizeOfAll (replacedBy entryKey call m.map) = 0 := by
        omega
      rw [hsplit, hiff, sizeOfAll_eq_zero, replacedBy_eq_nil, hkeys, List.map_append,
        List.map_singleton, ← List.concat_eq_append, List.nodup_concat, and_comm]

/-- **`size_bytes` is the size of the entries present** exactly if no key is inserted twice
under one sequence number. -/
theorem size_eq_content_iff (maxSizeBytes : Nat) (calls : List Entry) :
    (calls.foldl insertCall (MemTable.new maxSizeBytes)).sizeBytes =
        sizeOfAll (calls.foldl insertCall (MemTable.new maxSizeBytes)).map ↔
      (calls.map entryKey).Nodup :=
  (size_foldl maxSizeBytes calls).2.2

/-- A batch that puts one key twice: one entry of 34 bytes is there, and 68 are counted. -/
theorem batch_counts_twice :
    let m := applyWalOp (MemTable.new 64) 1 (.group [.put [7] [0], .put [7] [1]])
    m.map = [⟨[7], 1, .put [1]⟩] ∧ sizeOfAll m.map = 34 ∧ m.sizeBytes = 68 ∧ m.isFull = true := by
  decide +kernel

end RubixDb.Proof
