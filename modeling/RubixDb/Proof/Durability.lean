import RubixDb.Proof.Recency
import RubixDb.Proof.Reopen

/-!
# Nothing acknowledged is lost

The chain of `RubixDb.Proof.Checkpoint` holds over whole runs, with every append to the
manifest failing in any of its calls, every attempt of the flush thread failing anywhere,
and the process stopping and opening again any number of times. One failure breaks it: a
failed write that is rolled back while the handle's `len` is behind the synced part of
the file cuts recorded edits off again (`RollbackSafe`).
-/

namespace RubixDb.Proof

open Lib List

variable {w₁ : World} {j : FlushJob} {stage : FlushStage}

variable {crc : Bytes → UInt32} {w w' : World} {a : Act}

/-- The step belongs to compaction. -/
def isCompaction : Act → Bool
  | .compactCapture | .compactSample | .compactAllocate | .compactWrite _ | .compactAdd _
  | .compactRemove _ | .compactSplice | .compactAbort | .unlink _ => true
  | _ => false

/-- The failure the step's append to the manifest meets. -/
def appendFault : Act → Option AppendFault
  | .flushAdd fault | .flushCheckpoint fault | .compactAdd fault | .compactRemove fault =>
    some fault
  | _ => none

/-- If the step's append fails in its write, the rollback does not cut into the synced
part of the manifest. -/
def RollbackSafe (w : World) (a : Act) : Prop :=
  ∀ fault ∈ appendFault a, NoStaleRollback w.manifest fault

instance (w : World) (a : Act) : Decidable (RollbackSafe w a) :=
  inferInstanceAs (Decidable (∀ fault ∈ appendFault a, _))

section Steps

variable {es fs ds : List ManifestEdit} {id : Nat} {size : UInt64} {fault : AppendFault}
    {m : Manifest} {ok : Bool} {j' : FlushJob} {p : WalPosition}

theorem Staged.frame (h : Staged w ds) (hflush : w₁.flush = w.flush)
    (hfiles : w₁.files = w.files) : Staged w₁ ds where
  adding := by rw [hflush, hfiles]; exact h.adding
  published := by rw [hflush, hfiles]; exact h.published
  installed := by rw [hflush]; exact h.installed
  position := by rw [hflush]; exact h.position
  recorded := by rw [hflush]; exact h.recorded
  purging := by rw [hflush]; exact h.purging

/-- A step of another thread that leaves the chain alone. -/
theorem Chained.frame (h : Chained crc w es fs ds) (hs : Same w w₁)
    (hman : w₁.manifest = w.manifest)
    (hsegs : segmentRecords (segments w₁) = segmentRecords (segments w))
    (hidle : w₁.cycle = w.cycle ∧ w₁.garbage = w.garbage) (hid : w₁.nextId = w.nextId)
    (hflush : w₁.flush = w.flush) (hfiles : w₁.files = w.files) : Chained crc w₁ es fs ds :=
  h.same hs hman hsegs hidle (hid ▸ h.nextId) (h.staged.frame hflush hfiles)

/-- The flush thread's own step that leaves the chain alone. -/
theorem Chained.flushTo (h : Chained crc w es fs ds) (hj : w.flush = some j)
    (hs : w₁.log = w.log ∧ appliedEntries w₁ = appliedEntries w ∧ w₁.active = w.active ∧
      w₁.queue = w.queue) (htr : w₁.tracker = w.tracker) (hfiles : w₁.files = w.files)
    (hman : w₁.manifest = w.manifest)
    (hsegs : segmentRecords (segments w₁) = segmentRecords (segments w))
    (hidle : w₁.cycle = w.cycle ∧ w₁.garbage = w.garbage) (hid : w₁.nextId ≤ u64Max)
    (hadd : ∀ id size, stage ≠ .add id size) (hawait : ∀ p, stage ≠ .await p)
    (hpast : pastInstall stage = true → j.published ≠ none)
    (hpurge : stage = .retire ∨ stage = .purge → j.checkpointRecorded = true) :
    Chained crc (w₁.flushTo j stage) es fs ds :=
  h.same (same_flushTo hj hs (htr ▸ Nat.le_refl _) (fun _ hf => hfiles ▸ hf) rfl rfl) hman hsegs
    hidle hid (h.staged.next hj (fun _ hf => hfiles ▸ hf) (prefix_refl _) hadd hawait hpast
      hpurge)

theorem chained_flushWrite (h : Chained crc w es fs ds) (hj : w.flush = some j) :
    Chained crc ((w.addFile ⟨writeFromMemtable j.frozen.table id, size⟩).flushTo j (.add id size))
      es fs ds := by
  have hfiles : ∀ f ∈ w.files,
      f ∈ (w.addFile ⟨writeFromMemtable j.frozen.table id, size⟩).files :=
    fun f hf => mem_append_left _ hf
  refine h.same (same_flushTo hj ⟨rfl, rfl, rfl, rfl⟩ (Nat.le_refl _) hfiles rfl rfl) rfl rfl
    ⟨rfl, rfl⟩ h.nextId ?_
  refine .of_job rfl (fun i sz hst => ?_)
    (fun i hp => h.staged.stillPublished hj hfiles (prefix_refl _) hp) (fun hst => ?_)
    (fun p hp => ?_) (h.staged.recorded j hj) (fun hst => ?_)
  · obtain ⟨rfl, rfl⟩ := FlushStage.add.inj hst
    exact mem_append_right _ (mem_singleton_self _)
  · cases hst
  · rcases hp with hp | hp
    · exact h.staged.position j p hj (.inl hp)
    · cases hp
  · rcases hst with hst | hst <;> cases hst

/-- The flush thread records its table. -/
theorem chained_flushAdd (h : Chained crc w es fs ds) (hb : Base w) (hj : w.flush = some j)
    (hst : j.stage = .add id size) (hroll : NoStaleRollback w.manifest fault)
    (hr : w.manifest.appendSync crc (addEdit (writeFromMemtable j.frozen.table id) size) fault =
      (m, ok)) (hfz : j'.frozen = j.frozen) (hck : j'.ckpt = j.ckpt) (hnext : ∀ ds', ds <+: ds' →
      (ok = true → ds' = es ++ [addEdit (writeFromMemtable j.frozen.table id) size]) →
      Staged ((w.setManifest m).flushTo j' stage) ds') :
    ∃ es' fs' ds', Chained crc ((w.setManifest m).flushTo j' stage) es' fs' ds' := by
  have hid : id < w.nextId := hb.filed.usesBelow j id hj (.inr (.inl ⟨size, hst⟩))
  have hmax := h.nextId
  have hseq : ∀ e ∈ (writeFromMemtable j.frozen.table id).records, e.seq ≤ u64Max := fun e he =>
    applied_le_max hb.numbered (hb.sourced.frozen _ (job_mem_unflushed hj) e he)
  have hfile := h.staged.adding j id size hj hst
  exact h.append hj (addEdit_wf size (by show id ≤ u64Max; omega) hseq)
    (applies_add size h.logs.applies) hroll hr (h.recorded.add ⟨_, hfile, rfl⟩) hfz hck hnext

/-- The flush thread records its checkpoint. -/
theorem chained_flushCheckpoint (h : Chained crc w es fs ds) (hb : Base w) (ht : Tracked w)
    (hj : w.flush = some j) (hst : j.stage = .checkpoint) (hp : j.checkpointMarker = some p)
    (hroll : NoStaleRollback w.manifest fault)
    (hr : w.manifest.appendSync crc (.setCheckpoint j.ckpt p.segmentId p.offset.toNat) fault =
      (m, ok)) (hfz : j'.frozen = j.frozen) (hck : j'.ckpt = j.ckpt) (hnext : ∀ ds', ds <+: ds' →
      (ok = true → ds' = es ++ [.setCheckpoint j.ckpt p.segmentId p.offset.toNat]) →
      Staged ((w.setManifest m).flushTo j' stage) ds') :
    ∃ es' fs' ds', Chained crc ((w.setManifest m).flushTo j' stage) es' fs' ds' := by
  have hl : line w = (j.frozen, j.ckpt) :: w.queue := by simp [line, hj]
  have hmarks := h.inLine.marks
  rw [hl, map_cons] at hmarks
  have hmark : ∀ n ∈ (line w).map (·.2) ++ [w.tracker.contiguous], j.ckpt ≤ n := by
    intro n hn
    rw [hl, map_cons] at hn
    rcases mem_cons.mp hn with rfl | hn
    · exact Nat.le_refl _
    · exact (pairwise_cons.mp hmarks).1 n hn
  have hpub := h.staged.installed j hj (by rw [hst]; rfl)
  have hcov : Upto w j.ckpt (Settled w es) := fun r hr hle e he =>
    (h.settled_upto hj hpub r hr hle e he).mono (fun _ hf => hf) h.logs.floor.2
  have hwf : (ManifestEdit.setCheckpoint j.ckpt p.segmentId p.offset.toNat).Wf := by
    have h1 := hmark w.tracker.contiguous (by simp)
    have h2 := ht.mark_lt
    have h3 := hb.numbered.fits
    exact ⟨by omega, h.staged.position j p hj (.inl hp), uint64_le _⟩
  refine h.append hj hwf (applies_checkpoint h.logs.applies fun c seg off hm => ?_) hroll hr
    (h.recorded.checkpoint hcov hmark) hfz hck hnext
  exact h.recorded.marks c seg off hm j.ckpt (by rw [hl]; simp)

/-- The flush thread takes a new MemTable. -/
theorem staged_fresh {f : FrozenTable} {ckpt : Nat}
    (hj : w₁.flush = some ⟨f, ckpt, .start, none, none, false⟩) : Staged w₁ ds :=
  .of_job hj (by simp) (by simp) (by simp [pastInstall]) (by simp) (by simp) (by simp)

theorem chained_flushMarker {offset : UInt64} (h : Chained crc w es fs ds) (ht : Tracked w)
    (hseg : Segmented w) (hj : w.flush = some j) (hst : j.stage = .marker) :
    Chained crc ((w.logRecord (.checkpointMarker j.ckpt)).flushTo j
      (.await ⟨w.activeSegment.id, offset, w.nextSeq⟩)) es fs ds := by
  have hl := h.logRecord ht (.checkpointMarker j.ckpt)
  have hsame : Same (w.logRecord (.checkpointMarker j.ckpt))
      ((w.logRecord (.checkpointMarker j.ckpt)).flushTo j
        (.await ⟨w.activeSegment.id, offset, w.nextSeq⟩)) :=
    same_flushTo hj ⟨rfl, rfl, rfl, rfl⟩ (Nat.le_refl _) (fun _ hf => hf) rfl rfl
  have hpub := h.staged.installed j hj (by rw [hst]; rfl)
  refine hl.same hsame rfl rfl ⟨rfl, rfl⟩ h.nextId ?_
  refine .of_job rfl (by simp) (h.staged.published j · hj) (fun _ => hpub) (fun p hp => ?_)
    (h.staged.recorded j hj) (by simp)
  rcases hp with hp | hp
  · exact h.staged.position j p hj (.inl hp)
  · obtain rfl := FlushStage.await.inj hp
    exact hseg.segmentId

theorem chained_flushAwait (h : Chained crc w es fs ds) (hj : w.flush = some j)
    (hst : j.stage = .await p) :
    Chained crc ((w.accountMarker p.seq j.ckpt).flushTo { j with checkpointMarker := some p }
      .checkpoint) es fs ds := by
  have hap : appliedEntries (w.accountMarker p.seq j.ckpt) = appliedEntries w := by
    rw [appliedEntries_concat (r := ⟨p.seq, .checkpointMarker j.ckpt⟩) rfl]
    exact append_nil _
  have hpub := h.staged.installed j hj (by rw [hst]; rfl)
  refine h.same (same_flushTo hj ⟨rfl, hap, rfl, rfl⟩ (contiguous_account_le _ _)
    (fun _ hf => hf) rfl rfl) rfl rfl ⟨rfl, rfl⟩ h.nextId ?_
  refine .of_job rfl (by simp) (h.staged.published j · hj) (fun _ => hpub) (fun q hp => ?_)
    (h.staged.recorded j hj) (by simp)
  rcases hp with hp | hp
  · cases hp
    exact h.staged.position j p hj (.inr hst)
  · cases hp

/-- Segments below the checkpoint go, and the job is done. -/
theorem chained_flushPurge (h : Chained crc w es fs ds) (hseg : Segmented w) (hj : w.flush = some j)
    (hst : j.stage = .purge) :
    Chained crc { w.purgeBefore j.ckpt [] with flush := none } es fs ds := by
  have hpub := h.staged.installed j hj (by rw [hst]; rfl)
  have hck := h.staged.recorded j hj (h.staged.purging j hj (.inr hst))
  have hline : line { w.purgeBefore j.ckpt [] with flush := none } = w.queue := by
    simp [line, World.purgeBefore]
  have hsub : ∀ g ∈ w.queue, g ∈ line w := by
    intro g hg
    simp [line, hg]
  exact {
    logs := h.logs
    inLine := h.inLine.leave hj ⟨rfl, rfl, rfl, rfl, rfl⟩ hline fun e he =>
      (h.staged.settled hj hpub he).mono (fun _ hf => hf) h.logs.floor.1
    recorded := h.recorded.mono rfl (fun g hg => hsub g (hline ▸ hg)) (Nat.le_refl _)
      fun _ hf => hf
    staged := staged_none rfl
    walKept := h.walKept.purge hseg hck
    idle := h.idle
    nextId := h.nextId }

theorem chained_flushPurgeFail {kept : List Nat} (h : Chained crc w es fs ds) (hseg : Segmented w)
    (hj : w.flush = some j) (hst : j.stage = .purge) :
    Chained crc ((w.purgeBefore j.ckpt kept).flushRetry j) es fs ds := by
  have hck := h.staged.recorded j hj (h.staged.purging j hj (.inr hst))
  have hsame : Same w ((w.purgeBefore j.ckpt kept).flushRetry j) :=
    same_flushTo hj ⟨rfl, rfl, rfl, rfl⟩ (Nat.le_refl _) (fun _ hf => hf) rfl rfl
  exact {
    logs := h.logs
    inLine := h.inLine.same hsame (prefix_refl _)
    recorded := h.recorded.same hsame
    staged := h.staged.retry hj (fun _ hf => hf) (prefix_refl _)
    walKept := h.walKept.purge hseg hck
    idle := h.idle
    nextId := h.nextId }

/-- **The chain holds across every step of one life of the process** without compaction,
whatever fails in it, as long as no rollback is stale. -/
theorem chained_step (h : Chained crc w es fs ds) (hb : Base w) (hseg : Segmented w)
    (ht : Tracked w) (hs : Step crc w a w') (hne : isReopen a = false)
    (hcomp : isCompaction a = false) (hroll : RollbackSafe w a) :
    ∃ es' fs' ds', Chained crc w' es' fs' ds' := by
  have hrefl : ∀ w₁ : World, Same w₁ w₁ :=
    fun w₁ => ⟨rfl, rfl, rfl, rfl, Nat.le_refl _, fun _ hf => hf⟩
  cases hs with
  | @append op =>
    exact ⟨es, fs, ds, (h.logRecord ht op).frame { hrefl (w.logRecord op) with } rfl rfl
      ⟨rfl, rfl⟩ rfl rfl rfl⟩
  | rotateWal =>
    refine ⟨es, fs, ds, h.frame { hrefl w with } rfl ?_ ⟨rfl, rfl⟩ rfl rfl rfl⟩
    simp [segments, World.rotate, segmentRecords]
  | applyRefused hr => exact ⟨es, fs, ds, h.applyRecord hb.numbered hr⟩
  | @applyFreeze r hr =>
    have hf := (h.applyRecord hb.numbered hr).freeze (tracked_applyRecord ht hb.numbered hr)
    exact ⟨es, fs, ds, hf.frame { hrefl (w.applyRecord r).freeze with } rfl rfl ⟨rfl, rfl⟩ rfl
      rfl rfl⟩
  | @apply r hr =>
    exact ⟨es, fs, ds, (h.applyRecord hb.numbered hr).frame { hrefl (w.applyRecord r) with } rfl
      rfl ⟨rfl, rfl⟩ rfl rfl rfl⟩
  | @flushRecv f ckpt rest hf hq =>
    refine ⟨es, fs, ds, h.same { hrefl w with line := ?_ } rfl rfl ⟨rfl, rfl⟩ h.nextId
      (staged_fresh rfl)⟩
    simp [line, hf, hq]
  | flushBegin hj _ _ hid =>
    exact ⟨es, fs, ds, h.flushTo hj ⟨rfl, rfl, rfl, rfl⟩ rfl rfl rfl rfl ⟨rfl, rfl⟩ hid (by simp)
      (by simp) (by simp [pastInstall]) (by simp)⟩
  | flushResume hj | flushInstallGone hj | flushFail hj =>
    exact ⟨es, fs, ds, h.flushTo hj ⟨rfl, rfl, rfl, rfl⟩ rfl rfl rfl rfl ⟨rfl, rfl⟩ h.nextId
      (by simp) (by simp) (by simp [pastInstall]) (by simp)⟩
  | flushWrite hj => exact ⟨es, fs, ds, chained_flushWrite h hj⟩
  | @flushAdd j size fault m id hj hst hr =>
    refine chained_flushAdd h hb hj hst (hroll fault rfl) hr rfl rfl fun ds' hds hok => ?_
    have hfile := h.staged.adding j id size hj hst
    refine .of_job rfl (by simp) (fun i hp => ?_) (by simp) (fun p hp => ?_)
      (fun hrec => h.staged.stillRecorded (j := j) hj hds hrec) (by simp)
    · cases hp
      -- the append was answered `Ok`, so its edit is one of those that last
      rw [hok rfl]
      exact ⟨mem_addedIds.mpr ⟨_, _, _, mem_append_right _ (mem_singleton_self _)⟩,
        _, hfile, rfl⟩
    · rcases hp with hp | hp
      · exact h.staged.position j p hj (.inl hp)
      · cases hp
  | flushAddFail hj hst hr =>
    exact chained_flushAdd h hb hj hst (hroll _ rfl) hr rfl rfl fun ds' hds _ =>
      h.staged.retry hj (fun _ hf => hf) hds
  | @flushInstall j f id hj hst hmem hid | @flushInstalled j t id hj hst =>
    have hpub := hb.filed.installing j id hj hst
    exact ⟨es, fs, ds, h.flushTo hj ⟨rfl, rfl, rfl, rfl⟩ rfl rfl rfl rfl ⟨rfl, rfl⟩ h.nextId
      (by simp) (by simp) (by simp [hpub]) (by simp)⟩
  | @flushRotate j hj hst =>
    have hpub := h.staged.installed j hj (by rw [hst]; rfl)
    refine ⟨es, fs, ds, h.flushTo hj ⟨rfl, rfl, rfl, rfl⟩ rfl rfl rfl ?_ ⟨rfl, rfl⟩ h.nextId
      ?_ ?_ (fun _ => hpub) ?_⟩
    · simp [segments, World.rotate, segmentRecords]
    · intro id size
      split <;> simp
    · intro p
      split <;> simp
    · intro hp
      split at hp <;> simp at hp
  | flushMarker hj hst => exact ⟨es, fs, ds, chained_flushMarker h ht hseg hj hst⟩
  | flushAwait hj hst => exact ⟨es, fs, ds, chained_flushAwait h hj hst⟩
  | @flushCheckpointDone j fault hj hst hrec =>
    have hpub := h.staged.installed j hj (by rw [hst]; rfl)
    exact ⟨es, fs, ds, h.flushTo hj ⟨rfl, rfl, rfl, rfl⟩ rfl rfl rfl rfl ⟨rfl, rfl⟩ h.nextId
      (by simp) (by simp) (fun _ => hpub) (fun _ => hrec)⟩
  | @flushCheckpoint j p fault m hj hst hp _ hr =>
    have hpub := h.staged.installed j hj (by rw [hst]; rfl)
    refine chained_flushCheckpoint h hb ht hj hst hp (hroll fault rfl) hr rfl rfl
      fun ds' hds hok => ?_
    refine .of_job rfl (by simp)
      (fun i hpi => h.staged.stillPublished (j := j) hj (fun _ hf => hf) hds hpi)
      (fun _ => hpub) (fun q hq => ?_) (fun _ => ?_) (fun _ => rfl)
    · rcases hq with hq | hq
      · exact h.staged.position j q hj (.inl hq)
      · cases hq
    · rw [hok rfl]
      exact ⟨_, _, mem_append_right _ (mem_singleton_self _)⟩
  | flushCheckpointFail hj hst hp _ hr =>
    exact chained_flushCheckpoint h hb ht hj hst hp (hroll _ rfl) hr rfl rfl fun ds' hds _ =>
      h.staged.retry hj (fun _ hf => hf) hds
  | @flushRetire j hj hst =>
    have hpub := h.staged.installed j hj (by rw [hst]; rfl)
    have hrec := h.staged.purging j hj (.inl hst)
    exact ⟨es, fs, ds, h.flushTo hj ⟨rfl, rfl, rfl, rfl⟩ rfl rfl rfl rfl ⟨rfl, rfl⟩ h.nextId
      (by simp) (by simp) (fun _ => hpub) (fun _ => hrec)⟩
  | flushPurge hj hst => exact ⟨es, fs, ds, chained_flushPurge h hseg hj hst⟩
  | flushPurgeFail hj hst => exact ⟨es, fs, ds, chained_flushPurgeFail h hseg hj hst⟩
  | fsync | snapshotRead | snapshotRegister | snapshotDrop =>
    exact ⟨es, fs, ds, h.frame { hrefl w with } rfl rfl ⟨rfl, rfl⟩ rfl rfl rfl⟩
  | reopen => cases hne
  | _ => cases hcomp

end Steps

/-! ## Whole runs -/

/-- What holds in every state of a run with stops in it. -/
structure Durable (crc : Bytes → UInt32) (w : World) : Prop where
  base : Base w
  segmented : Segmented w
  tracked : Tracked w
  chained : ∃ es fs ds, Chained crc w es fs ds

theorem durable_init (cfg : LsmConfig) : Durable crc (World.init cfg) where
  base := base_init cfg
  segmented := segmented_init cfg
  tracked := tracked_init cfg
  chained := ⟨[], [], [], chained_init cfg⟩

theorem durable_step (h : Durable crc w) (hs : Step crc w a w') (hcomp : isCompaction a = false)
    (hroll : RollbackSafe w a) : Durable crc w' := by
  obtain ⟨es, fs, ds, hc⟩ := h.chained
  have hfiled := filed_step h.base.filed hs
  have hcycling := cycling_step h.base.cycling h.base.filed hs
  by_cases hne : isReopen a = false
  · exact {
      base := base_step h.base hs hne
      segmented := segmented_step h.segmented h.base.numbered hs hne
      tracked := tracked_step h.tracked h.base.numbered hs hne
      chained := chained_step hc h.base h.segmented h.tracked hs hne hcomp hroll }
  · cases hs with
    | @reopen n k lost w₁ hn _ hk hopen =>
      obtain ⟨es₁, m, r, hrep⟩ := hc.replayed hn
      have hd := hrep.found h.base.filed hopen
      obtain ⟨es', ds', hc'⟩ := hd.chained hc h.base h.segmented
      exact {
        base := {
          numbered := hd.numbered hc h.base.numbered h.segmented h.tracked hk
          queued := hd.queued
          filed := hfiled
          cycling := hcycling
          sourced := hd.sourced h.base h.segmented hk }
        segmented := hd.segmented h.base.numbered h.segmented
        tracked := hd.tracked
        chained := ⟨es', es', ds', hc'⟩ }
    | _ => exact absurd rfl hne

/-- A run as checkpoint safety speaks of it: any interleaving of writers, the flush thread
and stops, with failures anywhere but in a stale rollback. -/
def FlushingRun (w : World) (a : Act) : Prop := isCompaction a = false ∧ RollbackSafe w a

instance (w : World) (a : Act) : Decidable (FlushingRun w a) :=
  inferInstanceAs (Decidable (_ ∧ _))

theorem durable_reach {cfg : LsmConfig}
    (h : Reach (World.act crc) FlushingRun (World.init cfg) w) : Durable crc w :=
  reach_invariant h (durable_init cfg) fun hd hc hs => durable_step hd hs hc.1 hc.2

/-- The version is in a table that is live in this state of the manifest. -/
def InLiveTable (w : World) (st : ManifestState) (e : Entry) : Prop :=
  ∃ f ∈ w.files, st.isLive f.table.id = true ∧ e ∈ f.table.records

/--
**Nothing acknowledged is lost.** After a crash at any point, with any part of the
manifest behind its synced bytes and any part of the log behind its durable records
still there: the manifest replays; every record up to its checkpoint has all its versions
in live tables; every acknowledged record has so too, or is in a segment and above the
checkpoint; and `open` succeeds, with every acknowledged version in the MemTable or in a
table.
-/
theorem acknowledged_recoverable {cfg : LsmConfig} {n k : Nat}
    (h : Reach (World.act crc) FlushingRun (World.init cfg) w)
    (hn : w.manifest.synced ≤ n) (hk : w.durable ≤ k) :
    ∃ m r, Manifest.openFile crc (w.manifest.file.take n) w.manifest.synced = .ok (m, r) ∧
      (∀ rec ∈ w.log, rec.seq ≤ r.state.checkpointSeq → ∀ e ∈ rec.entries,
        InLiveTable w r.state e) ∧
      (∀ rec ∈ w.acked, (∀ e ∈ rec.entries, InLiveTable w r.state e) ∨
        (rec ∈ segmentRecords (w.cutSegments k) ∧ r.state.checkpointSeq < rec.seq)) ∧
      ∀ lost : List Nat, (∀ id ∈ lost, r.state.isLive id = false) →
        ∃ w₁, openEngine crc w.cfg (w.cutSegments k) (w.manifest.file.take n) w.manifest.synced
            (w.files.filter fun f => f.table.id ∉ lost) = .ok w₁ ∧
          ∀ rec ∈ w.acked, ∀ e ∈ rec.entries,
            e ∈ w₁.active.map ∨ ∃ t ∈ w₁.sstables, e ∈ t.records := by
  obtain ⟨hb, hseg, ht, es, fs, ds, hc⟩ := durable_reach h
  obtain ⟨es₁, m, r, hrep⟩ := hc.replayed hn
  have hlive : ∀ e, Settled w es₁ e → InLiveTable w r.state e := by
    rintro e ⟨f, hf, hid, he⟩
    exact ⟨f, hf, (hrep.isLive_iff hc f.table.id).mpr hid, he⟩
  have hcov : ∀ rec ∈ w.log, rec.seq ≤ r.state.checkpointSeq → ∀ e ∈ rec.entries,
      InLiveTable w r.state e :=
    fun rec hrec hle e he => hlive e (hrep.upto hc hb.numbered rec hrec hle e he)
  -- what is acknowledged was logged and synced
  have hacked : ∀ rec ∈ w.acked, rec ∈ w.log ∧ rec.seq ≤ k := fun rec hrec => by
    obtain ⟨hlog, hle⟩ := hb.numbered.applied rec (hb.numbered.acked rec hrec)
    exact ⟨hlog, hle.trans hk⟩
  refine ⟨m, r, hrep.file, hcov, fun rec hrec => ?_, fun lost hlost => ?_⟩
  · obtain ⟨hlog, hle⟩ := hacked rec hrec
    by_cases hck : rec.seq ≤ r.state.checkpointSeq
    · exact .inl (hcov rec hlog hck)
    · exact .inr ⟨(hrep.replayed_or_covered hc hlog hle).resolve_right hck, by omega⟩
  · obtain ⟨w₁, hopen⟩ := hrep.returns hc hb.filed (w.cutSegments k) hlost
    have hd := hrep.found hb.filed hopen
    refine ⟨w₁, hopen, fun rec hrec e he => ?_⟩
    obtain ⟨hlog, hle⟩ := hacked rec hrec
    by_cases hck : rec.seq ≤ r.state.checkpointSeq
    · obtain ⟨f, hf, hid, he⟩ := hrep.upto hc hb.numbered rec hlog hck e he
      have hkept := hd.file_kept hc hb.filed hf hid
      exact .inr ⟨f.table, (hd.mem_sstables hb.filed).mpr ⟨f, hkept, rfl⟩, he⟩
    · exact .inl (hd.mem_active hc hb.numbered hseg hlog hle (by omega) he)

/-! ## Two runs -/

/-- The flush thread's attempt up to its append, which meets `fault`. -/
def addRun (fault : AppendFault) : List Act := [.flushBegin, .flushWrite 0, .flushAdd fault]

/-- A failed sync leaves the handle's `len` behind, and a failed write of the next flush is
rolled back to there, into the middle of a synced frame; the retry appends behind it. -/
def staleRollbackRun : List Act :=
  putRun 1 [107] [1] ++ [.flushRecv] ++ addRun .sync ++ addRun .none ++ [.flushInstall] ++
    checkpointRun 2 ++ putRun 3 [108] [2] ++ [.flushRecv] ++ addRun (.write 0 .none) ++
    addRun .none

/-- **A stale rollback destroys the manifest.** Two writes are acknowledged, every append
that failed was retried, and the engine cannot be opened any more. -/
theorem stale_rollback_loses_acknowledged :
    ∃ w, Reach (World.act crc32c) (fun _ a => isCompaction a = false) (World.init tinyConfig) w ∧
      w.acked.length = 2 ∧
      (openEngine crc32c w.cfg (w.cutSegments w.durable)
        (w.manifest.file.take w.manifest.synced) w.manifest.synced w.files).isOk = false :=
  exists_reach_of_run staleRollbackRun (by decide +kernel)

/-- Both kinds of failure, the rollback not stale, and a stop in between. -/
theorem acknowledged_recoverable_after_faults :
    ∃ w, w.acked.length = 2 ∧
      ∃ m r, Manifest.openFile crc32c (w.manifest.file.take w.manifest.synced)
          w.manifest.synced = .ok (m, r) ∧
        (∀ rec ∈ w.log, rec.seq ≤ r.state.checkpointSeq → ∀ e ∈ rec.entries,
          InLiveTable w r.state e) ∧
        (∀ rec ∈ w.acked, (∀ e ∈ rec.entries, InLiveTable w r.state e) ∨
          (rec ∈ segmentRecords (w.cutSegments w.durable) ∧ r.state.checkpointSeq < rec.seq)) ∧
        ∀ lost : List Nat, (∀ id ∈ lost, r.state.isLive id = false) →
          ∃ w₁, openEngine crc32c w.cfg (w.cutSegments w.durable)
              (w.manifest.file.take w.manifest.synced) w.manifest.synced
              (w.files.filter fun f => f.table.id ∉ lost) = .ok w₁ ∧
            ∀ rec ∈ w.acked, ∀ e ∈ rec.entries,
              e ∈ w₁.active.map ∨ ∃ t ∈ w₁.sstables, e ∈ t.records := by
  obtain ⟨w, hreach, hlen⟩ : ∃ w, Reach (World.act crc32c) FlushingRun (World.init tinyConfig) w ∧
      w.acked.length = 2 :=
    exists_reach_of_run
      (putRun 1 [107] [1] ++ [.flushRecv] ++ addRun (.write 3 .none) ++ addRun .sync ++
        addRun .none ++ [.flushInstall] ++ checkpointRun 2 ++ putRun 3 [108] [2] ++
        [.reopen 115 3 []])
      (by decide +kernel)
  exact ⟨w, hlen, acknowledged_recoverable hreach (Nat.le_refl _) (Nat.le_refl _)⟩

end RubixDb.Proof
