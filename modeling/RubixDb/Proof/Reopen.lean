import RubixDb.Proof.Checkpoint

/-!
# Stopping and opening again

A stop leaves the synced bytes of the manifest and perhaps more, the WAL up to some
record at or behind the durable one, and the table files. What `LsmEngine::open` makes
of them satisfies everything the steps of one life of the process preserve: the log is
numbered, the segments and the tracker agree with it, and the chain from the tracker to
the manifest is closed again (`durable_reopen`).
-/

namespace RubixDb.Proof

open Lib List

variable {crc : Bytes → UInt32} {w w₁ : World} {n k : Nat} {lost : List Nat}
  {segs : List WalSegment} {es fs ds es₁ : List ManifestEdit} {m : Manifest}
  {r : ManifestReplayResult}
    {e : Entry} {es' : List ManifestEdit} {rec : WalRecord}

/-- The process goes on with what it opened; records cut off the log are gone. -/
def reopened (w w₁ : World) (k : Nat) : World :=
  { w₁ with
    log := w.log.filter (·.seq ≤ k)
    applied := w.log.filter (·.seq ≤ k)
    acked := w.acked }

/-- The manifest as a stop leaves it: the edits `es₁` are still there. -/
structure Replayed (crc : Bytes → UInt32) (w : World) (n : Nat) (es ds es₁ : List ManifestEdit)
    (m : Manifest) (r : ManifestReplayResult) : Prop where
  file : Manifest.openFile crc (w.manifest.file.take n) w.manifest.synced = .ok (m, r)
  state : ManifestState.applyAll {} es₁ = .ok r.state
  initial : es₁ <+: es
  kept : ds <+: es₁
  logs : Logs crc m es₁ es₁ ds
  sound : m.poisoned = false

/-- What `open` makes of it, with the segments `segs` and the files not in `lost`. -/
structure Found (crc : Bytes → UInt32) (w w₁ : World) (n : Nat) (segs : List WalSegment)
    (lost : List Nat) (es ds es₁ : List ManifestEdit) (m : Manifest) (r : ManifestReplayResult) :
    Prop extends Replayed crc w n es ds es₁ m r where
  opened : OpenedAs crc w.cfg segs (w.manifest.file.take n) w.manifest.synced
    (w.files.filter fun f => f.table.id ∉ lost) w₁ m r

theorem Chained.replayed (h : Chained crc w es fs ds) (hn : w.manifest.synced ≤ n) :
    ∃ es₁ m r, Replayed crc w n es ds es₁ m r := by
  obtain ⟨es₁, m, r, hfile, hst, hes, hds, hlogs, hp⟩ := logs_openFile h.logs hn
  exact ⟨es₁, m, r, hfile, hst, hes, hds, hlogs, hp⟩

theorem Replayed.found (hr : Replayed crc w n es ds es₁ m r) (hf : Filed w)
    (hopen : openEngine crc w.cfg segs (w.manifest.file.take n) w.manifest.synced
      (w.files.filter fun f => f.table.id ∉ lost) = .ok w₁) :
    Found crc w w₁ n segs lost es ds es₁ m r := by
  obtain ⟨m', r', ho⟩ := openEngine_ok (hf.nodup.sublist (filter_sublist.map _)) hopen
  obtain ⟨rfl, rfl⟩ := Prod.mk.inj (Except.ok.inj (hr.file.symm.trans ho.manifestOpened))
  exact ⟨hr, ho⟩

/-- What is live in the manifest that was found. -/
theorem Replayed.isLive_iff (hd : Replayed crc w n es ds es₁ m r)
    (h : Chained crc w es fs ds) (id : Nat) : r.state.isLive id = true ↔ id ∈ addedIds es₁ := by
  rw [isLive_of_added (h.recorded.initial hd.initial).noRemove hd.state id]
  simp [ManifestState.isLive]

/-- Every live table has its file. -/
theorem Replayed.present (hd : Replayed crc w n es ds es₁ m r) (h : Chained crc w es fs ds)
    {id : Nat} (hid : r.state.isLive id = true) : ∃ f ∈ w.files, f.table.id = id :=
  (h.recorded.initial hd.initial).files id ((hd.isLive_iff h id).mp hid)

/-- **`open` succeeds** whatever the segments hold, if no live table is lost. -/
theorem Replayed.returns (hd : Replayed crc w n es ds es₁ m r) (h : Chained crc w es fs ds)
    (hf : Filed w) (segs : List WalSegment) (hlost : ∀ id ∈ lost, r.state.isLive id = false) :
    ∃ w₁, openEngine crc w.cfg segs (w.manifest.file.take n) w.manifest.synced
      (w.files.filter fun f => f.table.id ∉ lost) = .ok w₁ := by
  refine openEngine_returns segs (hf.nodup.sublist (filter_sublist.map _)) hd.file
    fun id hid => ?_
  obtain ⟨f, hmem, rfl⟩ := hd.present h hid
  refine ⟨f, mem_filter.mpr ⟨hmem, ?_⟩, rfl⟩
  have hnot : f.table.id ∉ lost := fun hin => by simp [hlost _ hin] at hid
  simpa using hnot

/-- The file of a recorded table is still there. -/
theorem Found.file_kept (hd : Found crc w w₁ n segs lost es ds es₁ m r)
    (h : Chained crc w es fs ds) (hf : Filed w) {f : SstFile} (hmem : f ∈ w.files)
    (hid : f.table.id ∈ addedIds es₁) : f ∈ w₁.files := by
  have hlive := (hd.isLive_iff h f.table.id).mpr hid
  obtain ⟨g, hg, hgf⟩ := hd.opened.present f.table.id hlive
  have hg' := (mem_filter.mp hg).1
  obtain rfl : g = f := inj_on_of_nodup_map hf.nodup hg' hmem hgf
  rw [hd.opened.files]
  exact mem_filter.mpr ⟨hg, decide_eq_true (.inl hlive)⟩

/-- The list holds the tables of the files that are kept. -/
theorem Found.mem_sstables (hd : Found crc w w₁ n segs lost es ds es₁ m r) (hf : Filed w)
    {t : SsTable} : t ∈ w₁.sstables ↔ ∃ f ∈ w₁.files, f.table = t := by
  have hnodup : (w₁.files.map (·.table.id)).Nodup := by
    rw [hd.opened.files]
    exact hf.nodup.sublist ((filter_sublist.trans filter_sublist).map _)
  rw [hd.opened.sstables, ← hd.opened.files, mem_reverse,
    (insertTables_spec hnodup .nil (by simp)).2 t]
  simp

theorem Found.settled (hd : Found crc w w₁ n segs lost es ds es₁ m r) (h : Chained crc w es fs ds)
    (hf : Filed w) (hs : Settled w es₁ e)
    (hes : es₁ <+: es') : Settled (reopened w w₁ k) es' e := by
  obtain ⟨f, hmem, hid, he⟩ := hs
  exact ⟨f, hd.file_kept h hf hmem hid, addedIds_mono hes hid, he⟩

/-- Everything up to the checkpoint that was found is in tables that were found. -/
theorem Replayed.upto (hd : Replayed crc w n es ds es₁ m r) (h : Chained crc w es fs ds)
    (hn : Numbered w) : Upto w r.state.checkpointSeq (Settled w es₁) := by
  intro rec hrec hle e he
  rcases checkpoint_mem hd.state with h0 | ⟨pre, seg, off, post, heq⟩
  · have hpos := hn.positive rec hrec
    have h0' : r.state.checkpointSeq = 0 := h0
    omega
  · have hset := (h.recorded.initial hd.initial).covered pre _ seg off post heq rec hrec hle e he
    exact hset.mono (fun _ hf => hf) ⟨_, heq.symm⟩

/-- The checkpoint that was found has been given out. -/
theorem Replayed.checkpoint_lt (hd : Replayed crc w n es ds es₁ m r)
    (h : Chained crc w es fs ds) (ht : Tracked w) : r.state.checkpointSeq < w.nextSeq := by
  have hmark := ht.mark_lt
  rcases checkpoint_mem hd.state with h0 | ⟨pre, seg, off, post, heq⟩
  · have h0' : r.state.checkpointSeq = 0 := h0
    omega
  · have hmem : ManifestEdit.setCheckpoint r.state.checkpointSeq seg off ∈ es₁ := by
      rw [heq]
      simp
    have hle := (h.recorded.initial hd.initial).marks _ seg off hmem w.tracker.contiguous (by simp)
    omega

/-- Nothing above the checkpoint was purged. -/
theorem Replayed.in_wal (hd : Replayed crc w n es ds es₁ m r) (h : Chained crc w es fs ds)
    (hrec : rec ∈ w.log) (hc : r.state.checkpointSeq < rec.seq) :
    rec ∈ segmentRecords (segments w) := by
  refine (h.walKept rec hrec).resolve_right ?_
  rintro ⟨c, seg, off, hm, hle⟩
  have := (checkpoint_le_of_mem hd.state).2 c seg off (hd.kept.subset hm)
  omega

/-- **Every record the crash left is replayed or lies below the checkpoint.** -/
theorem Replayed.replayed_or_covered (hd : Replayed crc w n es ds es₁ m r)
    (h : Chained crc w es fs ds) (hrec : rec ∈ w.log) (hk : rec.seq ≤ k) :
    rec ∈ segmentRecords (w.cutSegments k) ∨ rec.seq ≤ r.state.checkpointSeq := by
  by_cases hc : rec.seq ≤ r.state.checkpointSeq
  · exact .inr hc
  · rw [segmentRecords_cut]
    exact .inl (mem_filter.mpr ⟨hd.in_wal h hrec (by omega), by simpa using hk⟩)

/-- The replayed records are in order. -/
theorem sorted_cut (hn : Numbered w) (hseg : Segmented w) (k : Nat) :
    SortedBy (·.seq) (segmentRecords (w.cutSegments k)) := by
  rw [segmentRecords_cut]
  exact (hn.sorted.sublist hseg.records).sublist filter_sublist

/-- The kept files are some of those there were. -/
theorem Found.files_subset (hd : Found crc w w₁ n segs lost es ds es₁ m r) {f : SstFile}
    (hf : f ∈ w₁.files) : f ∈ w.files := by
  rw [hd.opened.files] at hf
  exact (mem_filter.mp (mem_filter.mp hf).1).1

theorem Found.unflushed_eq (hd : Found crc w w₁ n segs lost es ds es₁ m r) :
    unflushed (reopened w w₁ k) = [] := by
  obtain ⟨_, hq, hfl, _⟩ := hd.opened.idle
  simp [unflushed, reopened, hq, hfl]

theorem Found.queued (hd : Found crc w w₁ n segs lost es ds es₁ m r) :
    Queued (reopened w w₁ k) := by
  obtain ⟨himm, _, hfl, _⟩ := hd.opened.idle
  have hun : unflushed (reopened w w₁ k) = [] := hd.unflushed_eq
  exact {
    immutables := by rw [hun]; exact (congrArg (List.Sublist · []) himm).mpr .slnil
    uids := by rw [hun]; exact nodup_nil
    uidBelow := by rw [hun]; intro f hf; cases hf
    retired := by
      intro j hj
      have hnone : (reopened w w₁ k).flush = none := hfl
      rw [hnone] at hj
      cases hj }

/-- Nothing that was applied before the stop is lost. -/
theorem applied_kept (hn : Numbered w) (hk : w.durable ≤ k)
    (he : e ∈ appliedEntries w) : e ∈ appliedEntries (reopened w w₁ k) := by
  obtain ⟨rec, hrec, he⟩ := mem_appliedEntries.mp he
  obtain ⟨hlog, hle⟩ := hn.applied rec hrec
  refine mem_appliedEntries.mpr ⟨rec, mem_filter.mpr ⟨hlog, ?_⟩, he⟩
  simpa using hle.trans hk

/-- Tables can always be recorded. -/
theorem applies_adds (files : List SstFile) : ∀ {es : List ManifestEdit},
    (∃ st, ManifestState.applyAll {} es = .ok st) →
    ∃ st, ManifestState.applyAll {} (es ++ files.map fun f => addEdit f.table f.size) = .ok st := by
  induction files with
  | nil => intro es h; simpa using h
  | cons f files ih =>
    intro es h
    have hsplit := ih (applies_add (t := f.table) f.size h)
    rwa [append_assoc] at hsplit

theorem Recorded.adds (files : List SstFile) : ∀ {es : List ManifestEdit}, Recorded w es →
    (∀ f ∈ files, f ∈ w.files) →
    Recorded w (es ++ files.map fun f => addEdit f.table f.size) := by
  induction files with
  | nil => intro es h _; simpa using h
  | cons f files ih =>
    intro es h hf
    have hone : Recorded w (es ++ [addEdit f.table f.size]) := h.add ⟨f, hf f (by simp), rfl⟩
    have hsplit := ih hone fun g hg => hf g (mem_cons_of_mem _ hg)
    rwa [append_assoc] at hsplit

/-- The edits that were found, over the files that were found. -/
theorem Found.recorded (hd : Found crc w w₁ n segs lost es ds es₁ m r)
    (h : Chained crc w es fs ds) (hf : Filed w) : Recorded (reopened w w₁ k) es₁ := by
  have hrec := h.recorded.initial hd.initial
  obtain ⟨_, hq, hfl, _⟩ := hd.opened.idle
  exact {
    noRemove := hrec.noRemove
    files := by
      intro id hid
      obtain ⟨f, hmem, rfl⟩ := hrec.files id hid
      exact ⟨f, hd.file_kept h hf hmem hid, rfl⟩
    covered := by
      intro pre c seg off post heq rec hlog hle e he
      obtain ⟨f, hmem, hid, he⟩ :=
        hrec.covered pre c seg off post heq rec (mem_filter.mp hlog).1 hle e he
      exact ⟨f, hd.file_kept h hf hmem (addedIds_mono ⟨_, heq.symm⟩ hid), hid, he⟩
    marks := by
      intro c seg off hm i hi
      have hline : line (reopened w w₁ k) = [] := by simp [line, reopened, hq, hfl]
      rw [hline] at hi
      have hi' : i = w₁.tracker.contiguous := mem_singleton.mp hi
      have hle := (checkpoint_le_of_mem hd.state).2 c seg off hm
      rw [hi', hd.opened.tracker]
      show c ≤ max _ _
      omega }

section Cut

variable (hd : Found crc w w₁ n (w.cutSegments k) lost es ds es₁ m r)

include hd

theorem Found.cut_segments :
    segmentRecords (segments w₁) =
      (segmentRecords (segments w)).filter fun rec => rec.seq ≤ k := by
  rw [opened_segmentRecords hd.opened (cutSegments_ne_nil w k), segmentRecords_cut]

theorem Found.segments_sublist (hseg : Segmented w) :
    (segmentRecords (segments w₁)).Sublist (w.log.filter fun rec => rec.seq ≤ k) := by
  rw [hd.cut_segments]
  exact hseg.records.filter _

theorem Found.log_lt (h : Chained crc w es fs ds) (hn : Numbered w) (hseg : Segmented w)
    (hrec : rec ∈ w.log) (hk : rec.seq ≤ k) : rec.seq < w₁.nextSeq := by
  rw [hd.opened.nextSeq]
  rcases hd.replayed_or_covered h hrec hk with hin | hle
  · have := le_lastSeq (sorted_cut hn hseg k) rec hin
    omega
  · omega

theorem Found.nextSeq_le (h : Chained crc w es fs ds) (hn : Numbered w) (hseg : Segmented w)
    (ht : Tracked w) : w₁.nextSeq ≤ w.nextSeq := by
  have hck := hd.checkpoint_lt h ht
  have hlast : lastSeq (segmentRecords (w.cutSegments k)) < w.nextSeq := by
    by_cases hnil : segmentRecords (w.cutSegments k) = []
    · rw [hnil]
      exact Nat.zero_lt_of_lt hck
    · obtain ⟨rec, hrec, hl⟩ := lastSeq_mem hnil
      rw [segmentRecords_cut] at hrec
      rw [hl]
      exact hn.below rec (hseg.records.subset (mem_filter.mp hrec).1)
  rw [hd.opened.nextSeq]
  omega

/-- A record above the checkpoint is back in the MemTable. -/
theorem Found.mem_active (h : Chained crc w es fs ds) (hn : Numbered w) (hseg : Segmented w)
    (hrec : rec ∈ w.log) (hk : rec.seq ≤ k) (hc : r.state.checkpointSeq < rec.seq)
    (he : e ∈ rec.entries) : e ∈ w₁.active.map := by
  have hin := (hd.replayed_or_covered h hrec hk).resolve_right (by omega)
  rw [hd.opened.active]
  exact entries_mem_replayWal (sorted_cut hn hseg k) hin hc he

/-! ## The invariants again -/

/-- Recovery numbers on behind what it found. -/
theorem Found.numbered (h : Chained crc w es fs ds) (hn : Numbered w) (hseg : Segmented w)
    (ht : Tracked w) (hk : w.durable ≤ k) : Numbered (reopened w w₁ k) := by
  have hmem : ∀ rec ∈ w.log.filter (·.seq ≤ k), rec ∈ w.log ∧ rec.seq ≤ k :=
    fun rec hrec => ⟨(mem_filter.mp hrec).1, by simpa using (mem_filter.mp hrec).2⟩
  have hlt : ∀ rec ∈ w.log.filter (·.seq ≤ k), rec.seq < w₁.nextSeq :=
    fun rec hrec => hd.log_lt h hn hseg (hmem rec hrec).1 (hmem rec hrec).2
  have hpos : 0 < w₁.nextSeq := by rw [hd.opened.nextSeq]; omega
  have hdur := hd.opened.durable
  exact {
    sorted := hn.sorted.sublist filter_sublist
    positive := fun rec hrec => hn.positive rec (hmem rec hrec).1
    below := hlt
    fits := (hd.nextSeq_le h hn hseg ht).trans hn.fits
    durable := by show w₁.durable < w₁.nextSeq; omega
    applied := by
      intro rec hrec
      have hle : rec.seq ≤ w₁.durable := by
        have := hlt rec hrec
        omega
      exact ⟨hrec, hle⟩
    pending := by
      intro rec hrec
      have hnil : (reopened w w₁ k).pending = [] := hd.opened.idle.2.2.2.2.2
      rw [hnil] at hrec
      cases hrec
    acked := by
      intro rec hrec
      obtain ⟨hlog, hle⟩ := hn.applied rec (hn.acked rec hrec)
      exact mem_filter.mpr ⟨hlog, by simpa using hle.trans hk⟩
    marker := by
      intro j p hj
      have hnone : (reopened w w₁ k).flush = none := hd.opened.idle.2.2.1
      rw [hnone] at hj
      cases hj }

theorem Found.sourced (hb : Base w) (hseg : Segmented w)
    (hk : w.durable ≤ k) : Sourced (reopened w w₁ k) := by
  exact {
    active := by
      intro e he
      have he' : e ∈ w₁.active.map := he
      rw [hd.opened.active] at he'
      rcases mem_replayWal he' with he' | ⟨rec, hrec, _, he'⟩
      · cases he'
      · rw [← opened_segmentRecords hd.opened (cutSegments_ne_nil w k)] at hrec
        exact mem_appliedEntries.mpr ⟨rec, (hd.segments_sublist hseg).subset hrec, he'⟩
    frozen := by
      intro f hf
      rw [hd.unflushed_eq] at hf
      cases hf
    files := fun f hf e he =>
      applied_kept hb.numbered hk (hb.sourced.files f (hd.files_subset hf) e he)
    tables := by
      intro t ht e he
      obtain ⟨f, hf, rfl⟩ := (hd.mem_sstables hb.filed).mp ht
      exact applied_kept hb.numbered hk (hb.sourced.files f (hd.files_subset hf) e he) }

theorem Found.segmented (hn : Numbered w) (hseg : Segmented w) : Segmented (reopened w w₁ k) where
  records := hd.segments_sublist hseg
  sealedMax := by
    show ∀ s ∈ w₁.sealed, _
    exact opened_sealedMax hd.opened (sorted_cut hn hseg k)
  segmentId := by
    show w₁.activeSegment.id ≤ u64Max
    rw [hd.opened.activeSegment]
    simpa [World.cutSegments] using hseg.segmentId

/-- Everything in the log counts as applied, so every number given out is done. -/
theorem Found.tracked : Tracked (reopened w w₁ k) := by
  have hcont : w₁.tracker.contiguous < w₁.nextSeq := by
    rw [hd.opened.tracker, hd.opened.nextSeq]
    show max _ _ < _
    omega
  refine ⟨fun i hi => ⟨Nat.lt_of_le_of_lt hi hcont, fun rec hrec _ => hrec⟩, fun i hi => ?_⟩
  have hnil : (reopened w w₁ k).tracker.above = [] := by
    show w₁.tracker.above = []
    rw [hd.opened.tracker]
  rw [hnil] at hi
  cases hi

/-! ## The chain again -/

theorem Found.inLine (h : Chained crc w es fs ds) (hb : Base w) (hseg : Segmented w)
    (hes : es₁ <+: es') : InLine (reopened w w₁ k) es' := by
  obtain ⟨_, hq, hfl, _⟩ := hd.opened.idle
  have hline : line (reopened w w₁ k) = [] := by simp [line, reopened, hq, hfl]
  exact {
    covered := by
      intro l₁ f c l₂ hl
      rw [hline] at hl
      simp at hl
    applied := by
      intro e he
      obtain ⟨rec, hrec, he⟩ := mem_appliedEntries.mp he
      obtain ⟨hlog, hle⟩ := mem_filter.mp hrec
      -- at or below the checkpoint a table has it, above it the replay does
      by_cases hc : rec.seq ≤ r.state.checkpointSeq
      · have hset := hd.upto h hb.numbered rec hlog hc e he
        exact .inr (.inr (hd.settled h hb.filed hset hes))
      · exact .inl (hd.mem_active h hb.numbered hseg hlog (by simpa using hle) (by omega) he)
    marks := by
      rw [hline]
      exact pairwise_singleton _ _ }

theorem Found.walKept {ds' : List ManifestEdit} (h : Chained crc w es fs ds)
    (hds : ds <+: ds') : WalKept (reopened w w₁ k) ds' := by
  intro rec hrec
  obtain ⟨hlog, hle⟩ := mem_filter.mp hrec
  rcases h.walKept rec hlog with hin | ⟨c, seg, off, hm, hc⟩
  · left
    show rec ∈ segmentRecords (segments w₁)
    rw [hd.cut_segments]
    exact mem_filter.mpr ⟨hin, hle⟩
  · exact .inr ⟨c, seg, off, hds.subset hm, hc⟩

theorem Found.nextId_le (h : Chained crc w es fs ds)
    (hf : Filed w) : w₁.nextId ≤ max 1 w.nextId := by
  have hbelow : ∀ f ∈ w.files, f.table.id < max 1 w.nextId :=
    fun f hmem => (hf.below f hmem).trans_le (Nat.le_max_right _ _)
  have hadded : ∀ id ∈ addedIds es₁, id < max 1 w.nextId := by
    intro id hid
    obtain ⟨f, hmem, rfl⟩ := (h.recorded.initial hd.initial).files id hid
    exact hbelow f hmem
  refine hd.opened.nextIdLe _ (Nat.le_max_left _ _) (fun f hmem => ?_) (fun id hid => ?_)
    (fun l hl => ?_)
  · exact hbelow f (mem_filter.mp hmem).1
  · exact hadded id ((everAdded_of_applyAll hd.state id hid).resolve_left (by simp))
  · exact hadded l.1 ((hd.isLive_iff h l.1).mp (RubixDb.Proof.isLive_iff.mpr ⟨l, hl, rfl⟩))

/-- **Opening closes the chain again.** -/
theorem Found.chained (h : Chained crc w es fs ds) (hb : Base w) (hseg : Segmented w) :
    ∃ es' ds', Chained crc (reopened w w₁ k) es' es' ds' := by
  obtain ⟨_, _, hfl, hcyc, hgar, _⟩ := hd.opened.idle
  have hunrec : ∀ f ∈ (w.files.filter fun f => f.table.id ∉ lost).filter
      (fun f => Unrecorded r.state f), f ∈ w.files :=
    fun f hf => (mem_filter.mp (mem_filter.mp hf).1).1
  have hid := h.nextId
  have hwf : ∀ e ∈ adoptEdits r.state (w.files.filter fun f => f.table.id ∉ lost), e.Wf := by
    intro e he
    obtain ⟨f, hf, rfl⟩ := mem_map.mp he
    have hmem := hunrec f hf
    refine addEdit_wf f.size (by have := hb.filed.below f hmem; omega) fun e he => ?_
    exact applied_le_max hb.numbered (hb.sourced.files f hmem e he)
  obtain ⟨ds', hlogs, hds, _⟩ := logs_appendAll hd.logs hd.sound hwf (applies_adds _ ⟨_, hd.state⟩)
  refine ⟨es₁ ++ adoptEdits r.state (w.files.filter fun f => f.table.id ∉ lost), ds', {
    logs := ?_
    inLine := hd.inLine h hb hseg (prefix_append _ _)
    recorded := (hd.recorded h hb.filed).adds _ fun f hf => ?_
    staged := staged_none hfl
    walKept := hd.walKept h hds
    idle := ⟨hcyc, hgar⟩
    nextId := ?_ }⟩
  · show Logs crc w₁.manifest _ _ _
    rw [hd.opened.manifest]
    exact hlogs
  · -- an adopted file is one that stays
    obtain ⟨hmem, hun⟩ := mem_filter.mp hf
    show f ∈ w₁.files
    rw [hd.opened.files]
    exact mem_filter.mpr ⟨hmem, decide_eq_true (.inr (of_decide_eq_true hun).2)⟩
  · have hle : w₁.nextId ≤ max 1 w.nextId := hd.nextId_le h hb.filed
    have hone : 1 ≤ u64Max := by decide
    show w₁.nextId ≤ u64Max
    omega

end Cut

end RubixDb.Proof
