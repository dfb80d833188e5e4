import RubixDb.Lib.Crc32c
import RubixDb.Proof.Apply
import RubixDb.Proof.WalWalk

/-!
# Recovery rebuilds the live tables

Writers apply their records in any order, each to the table active just then; recovery
applies the log in its order, to one table. The versions come out the same.
-/

namespace RubixDb.Proof

open Lib

variable {n : Nat} {e : Entry} {rs : List WalRecord}

/-- The table these records were applied to. -/
def applied (n : Nat) (rs : List WalRecord) : MemTable :=
  rs.foldl (fun m r => applyWalOp m r.seq r.op) (MemTable.new n)

theorem mem_applied (h : (rs.map (·.seq)).Nodup) :
    e ∈ (applied n rs).map ↔ ∃ r ∈ rs, e ∈ r.entries := by
  induction rs using List.reverseRecOn with
  | nil => simp [applied]
  | append_singleton rs r ih =>
    rw [List.map_append, List.nodup_append] at h
    have hsnoc : applied n (rs ++ [r]) = applyWalOp (applied n rs) r.seq r.op := by simp [applied]
    -- no earlier record has this number, so nothing is replaced
    have hnew : ∀ r' ∈ rs, r'.seq ≠ r.seq := fun r' hr' =>
      h.2.2 _ (List.mem_map_of_mem hr') _ (by simp)
    rw [hsnoc, mem_applyWalOp_iff, ih h.1]
    simp only [List.mem_append, List.mem_singleton]
    grind [entries_seq]

theorem replayWal_eq (n ckpt : Nat) (rs : List WalRecord) :
    replayWal (MemTable.new n) ckpt rs = applied n (rs.filter (ckpt < ·.seq)) := by
  simp only [replayWal, applied, List.foldl_filter, decide_eq_true_iff, ← Nat.not_le, ite_not]

section

variable (crc : Bytes → UInt32) (maxRecordLen segmentId n ckpt : Nat)
  (frames : List (WalFrame crc maxRecordLen))

/-- What replaying the segment of these frames builds. -/
def recovered : MemTable :=
  replayWal (MemTable.new n) ckpt (walkSegment crc maxRecordLen
    (encodeSegmentHeader segmentId ++ segmentBody frames)).records

/-- **Recovery rebuilds what was live.** However the records above the checkpoint were
spread over tables, and in whatever order they were applied, replaying the log gives
exactly the versions of those tables. -/
theorem mem_recovered_iff (tables : List (List WalRecord))
    (hseqs : ((frames.map (·.record)).map (·.seq)).Nodup)
    (hlive : tables.flatten.Perm ((frames.map (·.record)).filter (ckpt < ·.seq))) (e : Entry) :
    e ∈ (recovered crc maxRecordLen segmentId n ckpt frames).map ↔
      ∃ rs ∈ tables, e ∈ (applied n rs).map := by
  have hwalk := (walkSegment_reads (length_encodeSegmentHeader segmentId)
    (reads_frames (.nil []) frames) (readFrame_zero (by simp))).records
  rw [List.append_nil, List.append_nil] at hwalk
  have hnodup : ∀ p, (((frames.map (·.record)).filter p).map (·.seq)).Nodup := fun p =>
    (List.filter_sublist.map _).nodup hseqs
  have hone : ∀ rs ∈ tables, (e ∈ (applied n rs).map ↔ ∃ r ∈ rs, e ∈ r.entries) :=
    fun rs hrs => mem_applied (((List.sublist_flatten_of_mem hrs).map _).nodup
      ((hlive.map _).nodup_iff.mpr (hnodup _)))
  -- both sides are the versions of the records above the checkpoint
  rw [recovered, hwalk, replayWal_eq, mem_applied (hnodup _)]
  simp only [← hlive.mem_iff, List.mem_flatten]
  grind

end

/-- A put and an overwrite, a deletion, and a group that writes one key twice. The first is
below the checkpoint; the others went to two tables, the group before the overwrite. -/
theorem recovered_spread : ∃ frames : List (WalFrame crc32c 64),
    frames.map (·.record) = [⟨1, .put [1] [2]⟩, ⟨2, .put [1] [3]⟩, ⟨3, .delete [1]⟩,
      ⟨4, .group [.put [2] [5], .delete [2]]⟩] ∧
    ∀ e, e ∈ (recovered crc32c 64 1 9 1 frames).map ↔
      ∃ rs ∈ [[⟨4, .group [.put [2] [5], .delete [2]]⟩, ⟨2, .put [1] [3]⟩], [⟨3, .delete [1]⟩]],
        e ∈ (applied 9 rs).map :=
  ⟨[⟨⟨1, .put [1] [2]⟩, _, ⟨by decide, trivial⟩, rfl⟩,
      ⟨⟨2, .put [1] [3]⟩, _, ⟨by decide, trivial⟩, rfl⟩,
      ⟨⟨3, .delete [1]⟩, _, ⟨by decide, trivial⟩, rfl⟩,
      ⟨⟨4, .group [.put [2] [5], .delete [2]]⟩, _, ⟨by decide, trivial⟩, rfl⟩], rfl,
    mem_recovered_iff crc32c 64 1 9 1 _ _ (by decide) (by decide)⟩

end RubixDb.Proof
