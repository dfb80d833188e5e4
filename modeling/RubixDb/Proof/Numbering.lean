import RubixDb.Proof.Durability

/-!
# Sequence numbers after a lost WAL suffix

`LsmEngine::open` takes the next sequence number from the last record of the WAL and the
checkpoint in the manifest. The tables are not asked. A frozen MemTable may hold versions
above the tracker's mark, applied out of order, and its table is recorded with the mark
as checkpoint; if the WAL then loses those records, the numbers are given out again.

`seqs_exceed_tables_iff` says exactly when that happens: when a record of the lost part,
above the checkpoint, has a version in a table.
-/

namespace RubixDb.Proof

open Lib

variable {crc : Bytes → UInt32} {w w' w₁ : World} {a : Act}

/-- The next number is above everything the engine holds or is about to apply. -/
structure Exceeds (w : World) : Prop where
  held : Holds (fun e => e.seq < w.nextSeq) w
  pending : ∀ r ∈ w.pending, r.seq < w.nextSeq

theorem nextSeq_step (hs : Step crc w a w') (hne : isReopen a = false) :
    w.nextSeq ≤ w'.nextSeq := by
  cases hs with
  | append | flushMarker => exact Nat.le_succ _
  | reopen => cases hne
  | _ => exact Nat.le_refl _

theorem exceeds_step (h : Exceeds w) (hc : Cycling w) (hs : Step crc w a w')
    (hne : isReopen a = false) : Exceeds w' := by
  have hle := nextSeq_step hs hne
  have hpend : ∀ r ∈ w.pending, r.seq < w'.nextSeq :=
    fun r hr => (h.pending r hr).trans_le hle
  refine ⟨holds_step (h.held.mono fun e he => he.trans_le hle) hc hs hne fun r hr _ e he => ?_, ?_⟩
  · rw [entries_seq he]
    exact hpend r hr
  · cases hs with
    | append =>
      intro r hr
      rcases List.mem_append.mp hr with hr | hr
      · exact hpend r hr
      · obtain rfl := List.mem_singleton.mp hr
        exact Nat.lt_succ_self _
    | applyRefused | applyFreeze | apply => exact fun r hr => hpend r (List.mem_filter.mp hr).1
    | reopen => cases hne
    | _ => exact hpend

/-! ## Opening without the end of the WAL -/

/-- No record of the lost part of the WAL above the checkpoint has a version in a table. -/
def LostUnflushed (w : World) (ckpt : Nat) (segs : List WalSegment) : Prop :=
  ∀ rec ∈ segmentRecords (segments w), rec ∉ segmentRecords segs → ckpt < rec.seq →
    ∀ f ∈ w.files, ∀ e ∈ rec.entries, e ∉ f.table.records

instance (w : World) (ckpt : Nat) (segs : List WalSegment) :
    Decidable (LostUnflushed w ckpt segs) :=
  inferInstanceAs (Decidable (∀ rec ∈ segmentRecords (segments w), _ → _ → ∀ f ∈ w.files,
    ∀ e ∈ rec.entries, _))

section Lost

variable {es fs ds es₁ : List ManifestEdit} {segs : List WalSegment} {m : Manifest}
  {r : ManifestReplayResult}

/-- With the manifest intact every file is kept. -/
theorem files_kept (h : Chained crc w es fs ds)
    (hrep : Replayed crc w w.manifest.file.length es ds es₁ m r)
    (ho : OpenedAs crc w.cfg segs w.manifest.file w.manifest.synced w.files w₁ m r) :
    w₁.files = w.files := by
  rw [ho.files]
  refine List.filter_eq_self.mpr fun f _ => decide_eq_true ?_
  by_cases hid : f.table.id ∈ r.state.everAdded
  · have hadd := (everAdded_of_applyAll hrep.state _ hid).resolve_left (by simp)
    exact .inl ((hrep.isLive_iff h f.table.id).mpr hadd)
  · exact .inr hid

theorem mem_opened_sstables (hf : Filed w) (hfiles : w₁.files = w.files)
    (ho : OpenedAs crc w.cfg segs w.manifest.file w.manifest.synced w.files w₁ m r) {t : SsTable} :
    t ∈ w₁.sstables ↔ ∃ f ∈ w.files, f.table = t := by
  rw [ho.sstables, ← ho.files, hfiles, List.mem_reverse,
    (insertTables_spec hf.nodup .nil (by simp)).2 t]
  simp

/-- What was lost is numbered above what was not. -/
theorem lastSeq_lt_lost (hn : Numbered w) (hseg : Segmented w)
    (hsegs : segmentRecords segs <+: segmentRecords (segments w)) {rec : WalRecord}
    (hrec : rec ∈ segmentRecords (segments w)) (hlost : rec ∉ segmentRecords segs) :
    lastSeq (segmentRecords segs) < rec.seq := by
  obtain ⟨rest, hrest⟩ := hsegs
  have hsorted := hn.sorted.sublist hseg.records
  rw [← hrest] at hrec hsorted
  have hin := (List.mem_append.mp hrec).resolve_left hlost
  by_cases hnil : segmentRecords segs = []
  · rw [hnil]
    refine hn.positive rec (hseg.records.subset ?_)
    rw [← hrest]
    exact hrec
  · obtain ⟨last, hlast, hl⟩ := lastSeq_mem hnil
    rw [hl]
    exact (List.pairwise_append.mp hsorted).2.2 last hlast rec hin

/-- The condition makes the next number exceed every table. -/
theorem exceeds_opened (hb : Base w) (hseg : Segmented w) (h : Chained crc w es fs ds)
    (hrep : Replayed crc w w.manifest.file.length es ds es₁ m r)
    (ho : OpenedAs crc w.cfg segs w.manifest.file w.manifest.synced w.files w₁ m r)
    (hsegs : segmentRecords segs <+: segmentRecords (segments w))
    (hlost : LostUnflushed w r.state.checkpointSeq segs) : Exceeds w₁ := by
  obtain ⟨_, hq, hfl, _, _, hpend⟩ := ho.idle
  have hnext := ho.nextSeq
  have hsorted : SortedBy (·.seq) (segmentRecords segs) :=
    (hb.numbered.sorted.sublist hseg.records).sublist hsegs.sublist
  have hkept : ∀ rec ∈ segmentRecords segs, rec.seq < w₁.nextSeq := by
    intro rec hrec
    have := le_lastSeq hsorted rec hrec
    omega
  have hfiles : ∀ f ∈ w.files, ∀ e ∈ f.table.records, e.seq < w₁.nextSeq := by
    intro f hf e he
    obtain ⟨rec, hap, her⟩ := mem_appliedEntries.mp (hb.sourced.files f hf e he)
    have hlog := (hb.numbered.applied rec hap).1
    rw [entries_seq her]
    -- covered by the checkpoint, in the log that is left, or in no table
    by_cases hck : rec.seq ≤ r.state.checkpointSeq
    · omega
    · have hin := hrep.in_wal h hlog (by omega)
      by_cases hsurv : rec ∈ segmentRecords segs
      · exact hkept rec hsurv
      · exact absurd he (hlost rec hin hsurv (by omega) f hf e her)
  have hw₁ := files_kept h hrep ho
  exact {
    held := {
      active := by
        intro e he
        rw [ho.active] at he
        rcases mem_replayWal he with he | ⟨rec, hrec, _, he⟩
        · cases he
        · rw [entries_seq he]
          exact hkept rec hrec
      frozen := by
        intro f hf
        have hun : unflushed w₁ = [] := by simp [unflushed, hq, hfl]
        rw [hun] at hf
        cases hf
      files := fun f hf => hfiles f (hw₁ ▸ hf)
      tables := by
        intro t ht
        obtain ⟨f, hf, rfl⟩ := (mem_opened_sstables hb.filed hw₁ ho).mp ht
        exact hfiles f hf }
    pending := by
      intro rec hrec
      rw [hpend] at hrec
      cases hrec }

end Lost

/--
**When sequence numbers go back.** An engine stopped in any state of a run loses the end
of its WAL and is opened again. In every state of its next life, the number of the next
record is above the checkpoint and above every version in the list, if and only if no
lost record above the checkpoint has a version in a table.
-/
theorem seqs_exceed_tables_iff {cfg : LsmConfig} {segs : List WalSegment} {m : Manifest}
    {r : ManifestReplayResult} (h : Reach (World.act crc) FlushingRun (World.init cfg) w)
    (hsegs : segmentRecords segs <+: segmentRecords (segments w))
    (hman : Manifest.openFile crc w.manifest.file w.manifest.synced = .ok (m, r))
    (hopen : openEngine crc w.cfg segs w.manifest.file w.manifest.synced w.files = .ok w₁) :
    (∀ w₂, Reach (World.act crc) (fun _ a => isReopen a = false) w₁ w₂ →
      r.state.checkpointSeq < w₂.nextSeq ∧
        ∀ t ∈ w₂.sstables, ∀ e ∈ t.records, e.seq < w₂.nextSeq) ↔
      LostUnflushed w r.state.checkpointSeq segs := by
  obtain ⟨hb, hseg, ht, es, fs, ds, hc⟩ := durable_reach h
  obtain ⟨m', r', ho⟩ := openEngine_ok hb.filed.nodup hopen
  obtain ⟨rfl, rfl⟩ := Prod.mk.inj (Except.ok.inj (hman.symm.trans ho.manifestOpened))
  obtain ⟨es₁, m', r', hrep⟩ := hc.replayed hc.logs.synced_le
  have hfile := hrep.file
  rw [List.take_length] at hfile
  obtain ⟨rfl, rfl⟩ := Prod.mk.inj (Except.ok.inj (hman.symm.trans hfile))
  have hw₁ := files_kept hc hrep ho
  constructor
  · intro hex rec hrec hlost hck f hf e her he
    have hlt := (hex w₁ .refl).2 f.table ((mem_opened_sstables hb.filed hw₁ ho).mpr ⟨f, hf, rfl⟩)
      e he
    have hlast := lastSeq_lt_lost hb.numbered hseg hsegs hrec hlost
    rw [entries_seq her, ho.nextSeq] at hlt
    omega
  · intro hlost w₂ hreach
    have hfiled : Filed w₁ := filed_idle ho.idle.2.2.1 ho.idle.2.2.2.1 (hw₁ ▸ hb.filed.nodup)
      (hw₁ ▸ ho.idsBelow.1)
    have hck : r.state.checkpointSeq < w₁.nextSeq := by
      rw [ho.nextSeq]
      omega
    -- the numbers stay ahead on every run from there
    obtain ⟨_, _, hex, hck⟩ : Filed w₂ ∧ Cycling w₂ ∧ Exceeds w₂ ∧
        r.state.checkpointSeq < w₂.nextSeq :=
      reach_invariant (P := fun w => Filed w ∧ Cycling w ∧ Exceeds w ∧
          r.state.checkpointSeq < w.nextSeq) hreach
        ⟨hfiled, cycling_none ho.idle.2.2.2.1,
          exceeds_opened hb hseg hc hrep ho hsegs hlost, hck⟩
        fun ⟨hf, hcy, he, hck⟩ hne hs =>
          ⟨filed_step hf hs, cycling_step hcy hf hs, exceeds_step he hcy hs hne,
            hck.trans_le (nextSeq_step hs hne)⟩
    exact ⟨hck, hex.held.tables⟩

/-! ## Two runs -/

/-- Two writes are logged and only the second is applied: the MemTable it fills is frozen
and published with the mark still below the first. -/
def outOfOrderRun : List Act :=
  [.append (.put [107] [1]), .append (.put [108] [2]), .fsync 2, .apply 2] ++ publishRun

/-- **A number is given out again.** The table holds number 2; without the WAL the next
record gets number 1. -/
theorem lost_suffix_reuses_seqs :
    ∃ w, Reach (World.act crc32c) FlushingRun (World.init tinyConfig) w ∧
      segmentRecords (w.cutSegments 0) <+: segmentRecords (segments w) ∧
      ∃ w₁, openEngine crc32c w.cfg (w.cutSegments 0) w.manifest.file w.manifest.synced w.files =
          .ok w₁ ∧ ∃ t ∈ w₁.sstables, ∃ e ∈ t.records, w₁.nextSeq < e.seq := by
  obtain ⟨w, hreach, hsegs, hopen⟩ : ∃ w,
      Reach (World.act crc32c) FlushingRun (World.init tinyConfig) w ∧
      segmentRecords (w.cutSegments 0) <+: segmentRecords (segments w) ∧
      (openEngine crc32c w.cfg (w.cutSegments 0) w.manifest.file w.manifest.synced
        w.files).toOption.any (fun w₁ => ∃ t ∈ w₁.sstables, ∃ e ∈ t.records, w₁.nextSeq < e.seq) =
          true :=
    exists_reach_of_run outOfOrderRun (by decide +kernel)
  exact ⟨w, hreach, hsegs, exists_ok hopen⟩

/-- A flushed write and one that is only in the WAL: the second can be lost. -/
theorem seqs_exceed_tables_unflushed_lost :
    ∃ (w w₁ : World) (r : ManifestReplayResult),
      segmentRecords (w.cutSegments 2) ≠ segmentRecords (segments w) ∧
      ((∀ w₂, Reach (World.act crc32c) (fun _ a => isReopen a = false) w₁ w₂ →
        r.state.checkpointSeq < w₂.nextSeq ∧
          ∀ t ∈ w₂.sstables, ∀ e ∈ t.records, e.seq < w₂.nextSeq) ↔
        LostUnflushed w r.state.checkpointSeq (w.cutSegments 2)) ∧
      LostUnflushed w r.state.checkpointSeq (w.cutSegments 2) := by
  obtain ⟨w, hreach, hne, hsegs, hman, hopen⟩ : ∃ w,
      Reach (World.act crc32c) FlushingRun (World.init tinyConfig) w ∧
      segmentRecords (w.cutSegments 2) ≠ segmentRecords (segments w) ∧
      segmentRecords (w.cutSegments 2) <+: segmentRecords (segments w) ∧
      (Manifest.openFile crc32c w.manifest.file w.manifest.synced).toOption.any
        (fun mr => LostUnflushed w mr.2.state.checkpointSeq (w.cutSegments 2)) = true ∧
      (openEngine crc32c w.cfg (w.cutSegments 2) w.manifest.file w.manifest.synced
        w.files).toOption.any (fun _ => True) = true :=
    exists_reach_of_run (putRun 1 [107] [1] ++ publishRun ++ checkpointRun 2 ++ putRun 3 [108] [2])
      (by decide +kernel)
  obtain ⟨⟨m, r⟩, hman, hlost⟩ := exists_ok hman
  obtain ⟨w₁, hopen, _⟩ := exists_ok hopen
  exact ⟨w, w₁, r, hne, seqs_exceed_tables_iff hreach hsegs hman hopen, hlost⟩

end RubixDb.Proof
