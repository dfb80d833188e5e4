import RubixDb.Proof.Base

/-!
# The WAL's segments and the apply tracker

The segments hold what is left of the log, in order; a sealed segment knows a bound on
its numbers. `Tracked` is what the tracker's mark means: no record at or below it is
still waiting to be applied. Both survive every step of one life of the process, and
opening the engine establishes them again (`Found.segmented`, `Found.tracked` in
`RubixDb.Proof.Reopen`).
-/

namespace RubixDb.Proof

open Lib List

variable {crc : Bytes → UInt32} {w w' : World} {a : Act} {r : WalRecord} {n : Nat} {w₁ : World}

/-- All segments, oldest first. -/
def segments (w : World) : List WalSegment := w.sealed ++ [w.activeSegment]

theorem segmentRecords_append (l₁ l₂ : List WalSegment) :
    segmentRecords (l₁ ++ l₂) = segmentRecords l₁ ++ segmentRecords l₂ := by
  simp [segmentRecords]

theorem segmentRecords_single (s : WalSegment) : segmentRecords [s] = s.records := by
  simp [segmentRecords]

theorem mem_segmentRecords {l : List WalSegment} :
    r ∈ segmentRecords l ↔ ∃ s ∈ l, r ∈ s.records := by
  simp [segmentRecords, mem_flatten]

theorem segmentRecords_sublist {l₁ l₂ : List WalSegment} (h : l₁.Sublist l₂) :
    (segmentRecords l₁).Sublist (segmentRecords l₂) :=
  (h.map _).flatten

theorem segmentRecords_logRecord (w : World) (op : WalOp) :
    segmentRecords (segments (w.logRecord op)) =
      segmentRecords (segments w) ++ [⟨w.nextSeq, op⟩] := by
  simp [segments, World.logRecord, segmentRecords_append, segmentRecords_single]

theorem segmentRecords_rotate (w : World) :
    segmentRecords (segments w.rotate) = segmentRecords (segments w) := by
  simp [segments, World.rotate, segmentRecords]

/-- The segments are part of the log. -/
structure Segmented (w : World) : Prop where
  records : (segmentRecords (segments w)).Sublist w.log
  sealedMax : ∀ s ∈ w.sealed, ∀ r ∈ s.records, r.seq ≤ s.sealedMax
  segmentId : w.activeSegment.id ≤ u64Max

theorem segmented_init (cfg : LsmConfig) : Segmented (World.init cfg) where
  records := List.Sublist.refl _
  sealedMax := by intro s hs; cases hs
  segmentId := by show 1 ≤ u64Max; decide

theorem Segmented.logRecord (h : Segmented w) (op : WalOp) : Segmented (w.logRecord op) where
  records := by
    rw [segmentRecords_logRecord]
    exact h.records.append (List.Sublist.refl _)
  sealedMax := h.sealedMax
  segmentId := h.segmentId

theorem Segmented.rotate (h : Segmented w) (hn : Numbered w)
    (hid : w.activeSegment.id < u64Max) : Segmented w.rotate where
  records := by
    rw [segmentRecords_rotate]
    exact h.records
  sealedMax := by
    intro s hs r hr
    rcases mem_append.mp hs with hs | hs
    · exact h.sealedMax s hs r hr
    · obtain rfl := mem_singleton.mp hs
      have hr' : r ∈ w.activeSegment.records := hr
      have hlog : r ∈ w.log :=
        h.records.subset (mem_segmentRecords.mpr ⟨_, mem_append_right _ (by simp), hr'⟩)
      have hlt := hn.below r hlog
      show r.seq ≤ if w.activeSegment.records = [] then 0 else w.nextSeq - 1
      rw [if_neg (ne_nil_of_mem hr')]
      omega
  segmentId := hid

theorem Segmented.purgeBefore (h : Segmented w) (ckpt : Nat) (kept : List Nat) :
    Segmented (w.purgeBefore ckpt kept) where
  records := by
    refine (segmentRecords_sublist ?_).trans h.records
    exact filter_sublist.append (List.Sublist.refl _)
  sealedMax := fun s hs => h.sealedMax s (mem_filter.mp hs).1
  segmentId := h.segmentId

theorem segmented_step (h : Segmented w) (hn : Numbered w) (hs : Step crc w a w')
    (hne : isReopen a = false) : Segmented w' := by
  cases hs with
  | @append op => exact { h.logRecord op with }
  | rotateWal hid => exact h.rotate hn hid
  | flushRotate _ _ hid => exact { h.rotate hn hid with }
  | @flushMarker j => exact { h.logRecord (.checkpointMarker j.ckpt) with }
  | @flushPurge j => exact { h.purgeBefore j.ckpt [] with }
  | @flushPurgeFail j kept => exact { h.purgeBefore j.ckpt kept with }
  | reopen => cases hne
  | _ => exact { h with }

/-! ## The tracker -/

theorem Accounted.mono {P Q : Nat → Prop} {t : ApplyTracker} (h : Accounted P t)
    (hpq : ∀ n, P n → Q n) : Accounted Q t :=
  ⟨fun n hn => hpq n (h.1 n hn), fun n hn => hpq n (h.2 n hn)⟩

/-- The number was given out, and its record is applied if it is still in the log. -/
def Done (w : World) (n : Nat) : Prop := n < w.nextSeq ∧ ∀ r ∈ w.log, r.seq = n → r ∈ w.applied

/-- What the tracker counts is done. -/
def Tracked (w : World) : Prop := Accounted (Done w) w.tracker

theorem tracked_init (cfg : LsmConfig) : Tracked (World.init cfg) := by
  refine ⟨fun n hn => ⟨?_, by simp [World.init]⟩, by simp [World.init]⟩
  have h0 : n ≤ 0 := hn
  show n < 1
  omega

/-- Logging a record under a fresh number leaves the old numbers done. -/
theorem Done.logRecord (op : WalOp) (h : Done w n) : Done (w.logRecord op) n := by
  refine ⟨Nat.lt_succ_of_lt h.1, fun r hr hseq => ?_⟩
  rcases mem_append.mp hr with hr | hr
  · exact h.2 r hr hseq
  · have hlt := h.1
    have hnew : w.nextSeq = n := by
      rw [← hseq, mem_singleton.mp hr]
    omega

/-- A record that is applied makes its number done. -/
theorem done_of_applied (hn : Numbered w) (hr : r ∈ w.log) (hlog : w₁.log = w.log)
    (hseq : w₁.nextSeq = w.nextSeq) (hap : r ∈ w₁.applied) : Done w₁ r.seq := by
  refine ⟨hseq ▸ hn.below r hr, fun r' hr' he => ?_⟩
  rw [hn.unique (hlog ▸ hr') hr he]
  exact hap

theorem Done.mono (h : Done w n) (hlog : w₁.log = w.log) (hseq : w₁.nextSeq = w.nextSeq)
    (hap : ∀ r ∈ w.applied, r ∈ w₁.applied) : Done w₁ n :=
  ⟨hseq ▸ h.1, fun r hr he => hap r (h.2 r (hlog ▸ hr) he)⟩

theorem tracked_applyRecord (h : Tracked w) (hn : Numbered w)
    (hr : r ∈ w.pending) : Tracked (w.applyRecord r) := by
  refine accounted_account (h.mono fun n hd => ?_) ?_
  · exact hd.mono rfl rfl fun r' hr' => mem_append_left _ hr'
  · exact done_of_applied hn (hn.pending r hr).1 rfl rfl (mem_applied_self w r)

theorem tracked_step (h : Tracked w) (hn : Numbered w) (hs : Step crc w a w')
    (hne : isReopen a = false) : Tracked w' := by
  cases hs with
  | @append op => exact h.mono fun n hd => hd.logRecord op
  | @flushMarker j => exact h.mono fun n hd => hd.logRecord (.checkpointMarker j.ckpt)
  | applyRefused hr | applyFreeze hr | apply hr => exact tracked_applyRecord h hn hr
  | @flushAwait j p hj hst =>
    refine accounted_account (h.mono fun n hd => ?_) ?_
    · exact hd.mono rfl rfl fun r' hr' => mem_append_left _ hr'
    · refine done_of_applied hn (hn.marker j p hj hst) rfl rfl ?_
      exact mem_append_right _ (by simp)
  | reopen => cases hne
  | _ => exact h

/-! ## Opening -/

/-- The last record of a segment has its highest number. -/
theorem le_lastSeq :
    ∀ {rs : List WalRecord}, SortedBy (·.seq) rs → ∀ r ∈ rs, r.seq ≤ lastSeq rs := by
  intro rs hs r hr
  obtain ⟨init, l, rfl⟩ : ∃ init l, rs = init ++ [l] :=
    ⟨_, _, (dropLast_append_getLast (ne_nil_of_mem hr)).symm⟩
  have hlast : lastSeq (init ++ [l]) = l.seq := by simp [lastSeq]
  rw [hlast]
  rcases mem_append.mp hr with hr | hr
  · exact ((pairwise_append.mp hs).2.2 r hr l (by simp)).le
  · exact mem_singleton.mp hr ▸ Nat.le_refl _

theorem lastSeq_mem {rs : List WalRecord} (h : rs ≠ []) : ∃ r ∈ rs, lastSeq rs = r.seq := by
  obtain ⟨init, l, rfl⟩ : ∃ init l, rs = init ++ [l] :=
    ⟨_, _, (dropLast_append_getLast h).symm⟩
  exact ⟨l, by simp, by simp [lastSeq]⟩

/-- A crash that cuts the log after `k` leaves the records up to `k` of every segment. -/
theorem segmentRecords_cut (w : World) (k : Nat) :
    segmentRecords (w.cutSegments k) =
      (segmentRecords (segments w)).filter fun r => r.seq ≤ k := by
  simp only [segmentRecords, World.cutSegments, segments, filter_flatten, map_map]
  rfl

theorem cutSegments_ne_nil (w : World) (k : Nat) : w.cutSegments k ≠ [] := by
  simp [World.cutSegments]

section Opened

variable {config : LsmConfig} {segs : List WalSegment} {bytes : Bytes} {sync : Nat}
  {found : List SstFile} {m : Manifest} {r : ManifestReplayResult}

/-- The engine goes on with the segments it found. -/
theorem opened_segmentRecords (ho : OpenedAs crc config segs bytes sync found w m r)
    (hne : segs ≠ []) : segmentRecords (segments w) = segmentRecords segs := by
  obtain ⟨init, l, rfl⟩ : ∃ init l, segs = init ++ [l] :=
    ⟨_, _, (dropLast_append_getLast hne).symm⟩
  unfold segments
  rw [ho.sealed, ho.activeSegment]
  simp [segmentRecords]
  rfl

theorem opened_sealedMax (ho : OpenedAs crc config segs bytes sync found w m r)
    (hs : SortedBy (·.seq) (segmentRecords segs)) :
    ∀ s ∈ w.sealed, ∀ rec ∈ s.records, rec.seq ≤ s.sealedMax := by
  intro s hmem rec hrec
  rw [ho.sealed] at hmem
  obtain ⟨s₀, hs₀, rfl⟩ := mem_map.mp hmem
  have hsub : s₀.records.Sublist (segmentRecords segs) :=
    sublist_flatten_of_mem (mem_map.mpr ⟨s₀, dropLast_subset _ hs₀, rfl⟩)
  exact le_lastSeq (hs.sublist hsub) rec hrec

end Opened

end RubixDb.Proof
