import RubixDb.Lib.Run
import RubixDb.Proof.Apply

/-!
# What one step can do

`Step` lists, once, every way a step of the engine can end, guards included. Every
invariant below is proved by cases on it; nothing else unfolds `World.act`.
-/

namespace RubixDb.Proof

open Lib

/-- One step of the engine, by outcome. -/
inductive Step (crc : Bytes → UInt32) (w : World) : Act → World → Prop where
  | append : w.cfg.accepts op = true → w.nextSeq < u64Max →
      Step crc w (.append op) { w.logRecord op with pending := w.pending ++ [⟨w.nextSeq, op⟩] }
  | fsync : n < w.nextSeq → Step crc w (.fsync n) { w with durable := max w.durable n }
  | rotateWal : w.activeSegment.id < u64Max → Step crc w .rotateWal w.rotate
  /-- The MemTable is full and there is no room to freeze it. -/
  | applyRefused : r ∈ w.pending → r.seq ≤ w.durable →
      (w.applyRecord r).active.isFull = true →
      w.cfg.maxImmutableMemtables ≤ w.immutables.length →
      Step crc w (.apply r.seq) (w.applyRecord r)
  | applyFreeze : r ∈ w.pending → r.seq ≤ w.durable →
      (w.applyRecord r).active.isFull = true →
      w.immutables.length < w.cfg.maxImmutableMemtables →
      Step crc w (.apply r.seq) ((w.applyRecord r).freeze.ack r)
  | apply : r ∈ w.pending → r.seq ≤ w.durable →
      (w.applyRecord r).active.isFull = false →
      Step crc w (.apply r.seq) ((w.applyRecord r).ack r)
  | flushRecv :
      w.flush = none → w.queue = (f, ckpt) :: rest →
      Step crc w .flushRecv
        { w with queue := rest, flush := some ⟨f, ckpt, .start, none, none, false⟩ }
  | flushBegin : w.flush = some j → j.stage = .start → j.published = none →
      w.nextId < u64Max → Step crc w .flushBegin (w.takeId.flushTo j (.write w.nextId))
  | flushResume {id : Nat} : w.flush = some j → j.stage = .start →
      j.published = some id → Step crc w .flushBegin (w.flushTo j (.install id))
  | flushWrite {id : Nat} : w.flush = some j → j.stage = .write id →
      Step crc w (.flushWrite size)
        ((w.addFile ⟨writeFromMemtable j.frozen.table id, size⟩).flushTo j (.add id size))
  | flushAdd {id : Nat} :
      w.flush = some j → j.stage = .add id size →
      w.manifest.appendSync crc (addEdit (writeFromMemtable j.frozen.table id) size) fault =
        (m, true) →
      Step crc w (.flushAdd fault)
        ((w.setManifest m).flushTo { j with published := some id } (.install id))
  | flushAddFail {id : Nat} :
      w.flush = some j → j.stage = .add id size →
      w.manifest.appendSync crc (addEdit (writeFromMemtable j.frozen.table id) size) fault =
        (m, false) →
      Step crc w (.flushAdd fault) ((w.setManifest m).flushRetry j)
  | flushInstall {id : Nat} : w.flush = some j →
      j.stage = .install id → f ∈ w.files → f.table.id = id → (∀ t ∈ w.sstables, t.id ≠ id) →
      Step crc w .flushInstall ((w.install f.table).flushTo j .rotate)
  /-- An earlier attempt already put the table into the list. -/
  | flushInstalled {id : Nat} : w.flush = some j →
      j.stage = .install id → t ∈ w.sstables → t.id = id →
      Step crc w .flushInstall (w.flushTo j .rotate)
  /-- The published file is gone: the table cannot be opened. -/
  | flushInstallGone {id : Nat} : w.flush = some j → j.stage = .install id →
      Step crc w .flushInstall (w.flushRetry j)
  | flushRotate : w.flush = some j → j.stage = .rotate →
      w.activeSegment.id < u64Max →
      Step crc w .flushRotate
        (w.rotate.flushTo j (if j.checkpointMarker = none then .marker else .checkpoint))
  | flushMarker : w.flush = some j → j.stage = .marker →
      w.nextSeq < u64Max →
      Step crc w (.flushMarker offset)
        ((w.logRecord (.checkpointMarker j.ckpt)).flushTo j
          (.await ⟨w.activeSegment.id, offset, w.nextSeq⟩))
  | flushAwait : w.flush = some j → j.stage = .await p →
      p.seq ≤ w.durable →
      Step crc w .flushAwait
        ((w.accountMarker p.seq j.ckpt).flushTo { j with checkpointMarker := some p } .checkpoint)
  /-- An earlier attempt already recorded the checkpoint. -/
  | flushCheckpointDone : w.flush = some j →
      j.stage = .checkpoint → j.checkpointRecorded = true →
      Step crc w (.flushCheckpoint fault) (w.flushTo j .retire)
  | flushCheckpoint :
      w.flush = some j → j.stage = .checkpoint → j.checkpointMarker = some p →
      j.checkpointRecorded = false →
      w.manifest.appendSync crc (.setCheckpoint j.ckpt p.segmentId p.offset.toNat) fault =
        (m, true) →
      Step crc w (.flushCheckpoint fault)
        ((w.setManifest m).flushTo { j with checkpointRecorded := true } .retire)
  | flushCheckpointFail :
      w.flush = some j → j.stage = .checkpoint → j.checkpointMarker = some p →
      j.checkpointRecorded = false →
      w.manifest.appendSync crc (.setCheckpoint j.ckpt p.segmentId p.offset.toNat) fault =
        (m, false) →
      Step crc w (.flushCheckpoint fault) ((w.setManifest m).flushRetry j)
  | flushRetire : w.flush = some j → j.stage = .retire →
      Step crc w .flushRetire ((w.retire j.frozen).flushTo j .purge)
  | flushPurge : w.flush = some j → j.stage = .purge →
      Step crc w (.flushPurge []) { w.purgeBefore j.ckpt [] with flush := none }
  | flushPurgeFail {kept : List Nat} : w.flush = some j → j.stage = .purge →
      kept ≠ [] → Step crc w (.flushPurge kept) ((w.purgeBefore j.ckpt kept).flushRetry j)
  | flushFail : w.flush = some j → Step crc w .flushFail (w.flushRetry j)
  | compactCapture : w.cycle = none → w.sstables ≠ [] →
      w.cfg.compactionTriggerCount ≤ w.sstables.length →
      Step crc w .compactCapture (w.setCycle (some ⟨w.sstables, .captured⟩))
  | compactSample : w.cycle = some c → c.stage = .captured →
      Step crc w .compactSample (w.setCycle (some ⟨c.inputs, .sampled w.registry.oldest⟩))
  | compactAllocate : w.cycle = some c →
      c.stage = .sampled oldest → w.nextId < u64Max →
      Step crc w .compactAllocate
        (w.takeId.setCycle (some ⟨c.inputs, .allocated oldest w.nextId⟩))
  | compactWrite {id : Nat} :
      w.cycle = some c → c.stage = .allocated oldest id →
      Step crc w (.compactWrite size)
        ((w.addFile ⟨mergeTable c.inputs oldest id, size⟩).setCycle
          (some ⟨c.inputs, .written (mergeTable c.inputs oldest id) size⟩))
  | compactAdd : w.cycle = some c → c.stage = .written output size →
      w.manifest.appendSync crc (addEdit output size) fault = (m, true) →
      Step crc w (.compactAdd fault)
        ((w.setManifest m).setCycle (some ⟨c.inputs, .removing output (c.inputs.map (·.id))⟩))
  | compactAddFail : w.cycle = some c → c.stage = .written output size →
      w.manifest.appendSync crc (addEdit output size) fault = (m, false) →
      Step crc w (.compactAdd fault) ((w.setManifest m).setCycle none)
  | compactRemove {id : Nat} : w.cycle = some c →
      c.stage = .removing output (id :: rest) →
      w.manifest.appendSync crc (.removeSstable id) fault = (m, true) →
      Step crc w (.compactRemove fault)
        ((w.setManifest m).setCycle (some ⟨c.inputs, .removing output rest⟩))
  | compactRemoveFail {id : Nat} : w.cycle = some c →
      c.stage = .removing output (id :: rest) →
      w.manifest.appendSync crc (.removeSstable id) fault = (m, false) →
      Step crc w (.compactRemove fault) ((w.setManifest m).setCycle none)
  | compactSplice : w.cycle = some c →
      c.stage = .removing output [] → Step crc w .compactSplice (w.splice c.inputs output)
  | compactAbort : w.cycle = some c → Step crc w .compactAbort (w.setCycle none)
  | unlink {id : Nat} : id ∈ w.garbage →
      Step crc w (.unlink id) { w with
        files := w.files.filter (·.table.id ≠ id)
        garbage := w.garbage.filter (· ≠ id) }
  | snapshotRead : Step crc w .snapshotRead { w with reading := w.reading ++ [w.durable] }
  | snapshotRegister : seq ∈ w.reading →
      Step crc w (.snapshotRegister seq) { w with
        reading := w.reading.erase seq
        registry := w.registry.acquire seq
        snapshots := w.snapshots ++ [seq] }
  | snapshotDrop : seq ∈ w.snapshots →
      Step crc w (.snapshotDrop seq) { w with
        registry := w.registry.release seq
        snapshots := w.snapshots.erase seq }
  | reopen : w.manifest.synced ≤ n →
      n ≤ w.manifest.file.length → w.durable ≤ k →
      openEngine crc w.cfg (w.cutSegments k) (w.manifest.file.take n) w.manifest.synced
        (w.files.filter fun f => f.table.id ∉ lost) = .ok w' →
      Step crc w (.reopen n k lost) { w' with
        log := w.log.filter (·.seq ≤ k)
        applied := w.log.filter (·.seq ≤ k)
        acked := w.acked }

variable {crc : Bytes → UInt32} {w w' : World} {a : Act}

theorem step_of_apply {seq : Nat} (h : w.act crc (.apply seq) = some w') :
    Step crc w (.apply seq) w' := by
  simp only [World.act] at h
  split at h
  · rename_i r hr
    split_ifs at h with hd
    cases h
    have hmem := List.mem_of_find?_eq_some hr
    obtain rfl : r.seq = seq := by simpa using List.find?_some hr
    unfold World.finishApply
    by_cases hfull : (w.applyRecord r).active.isFull
    · by_cases hroom : w.cfg.maxImmutableMemtables ≤ w.immutables.length
      · rw [if_pos hfull, if_pos hroom]
        exact .applyRefused hmem hd hfull hroom
      · rw [if_pos hfull, if_neg hroom]
        exact .applyFreeze hmem hd hfull (Nat.not_le.mp hroom)
    · rw [if_neg hfull]
      exact .apply hmem hd (by simpa using hfull)
  · cases h

/-- The flush thread's part. -/
theorem step_of_flushAct {j : FlushJob} (hj : w.flush = some j)
    (h : w.flushAct crc j a = some w') : Step crc w a w' := by
  unfold World.flushAct at h
  cases a with
  | flushBegin =>
    dsimp only at h
    split at h
    · rename_i hstage hpub
      split_ifs at h
      cases h
      exact .flushBegin hj hstage hpub ‹_›
    · rename_i id hstage hpub
      cases h
      exact .flushResume hj hstage hpub
    · cases h
  | flushWrite size =>
    dsimp only at h
    split at h
    · rename_i id hstage
      cases h
      exact .flushWrite hj hstage
    · cases h
  | flushAdd fault =>
    dsimp only at h
    split at h
    · rename_i id size hstage
      split_ifs at h with hok
      · cases h
        exact .flushAdd hj hstage (Prod.ext rfl hok)
      · cases h
        exact .flushAddFail hj hstage (Prod.ext rfl (by simpa using hok))
    · cases h
  | flushInstall =>
    dsimp only at h
    split at h
    · rename_i id hstage
      split_ifs at h with hlist
      · cases h
        obtain ⟨t, ht, hid⟩ := List.any_eq_true.mp hlist
        exact .flushInstalled hj hstage ht (by simpa using hid)
      · have hnew : ∀ t ∈ w.sstables, t.id ≠ id := by simpa using hlist
        split at h
        · cases h
          exact .flushInstallGone hj hstage
        · rename_i f hf
          cases h
          exact .flushInstall hj hstage (List.mem_of_find?_eq_some hf)
            (by simpa using List.find?_some hf) hnew
    · cases h
  | flushRotate =>
    dsimp only at h
    split at h
    · rename_i hg
      cases h
      exact .flushRotate hj hg.1 hg.2
    · cases h
  | flushMarker offset =>
    dsimp only at h
    split_ifs at h with hg
    cases h
    exact .flushMarker hj hg.1 hg.2
  | flushAwait =>
    dsimp only at h
    split at h
    · rename_i p hstage
      split_ifs at h
      cases h
      exact .flushAwait hj hstage ‹_›
    · cases h
  | flushCheckpoint fault =>
    dsimp only at h
    split at h
    · rename_i p hstage hp
      split at h
      · cases h
        exact .flushCheckpointDone hj hstage ‹_›
      · rename_i hrec
        have hrec : j.checkpointRecorded = false := by simpa using hrec
        split_ifs at h with hok
        · cases h
          exact .flushCheckpoint hj hstage hp hrec (Prod.ext rfl hok)
        · cases h
          exact .flushCheckpointFail hj hstage hp hrec (Prod.ext rfl (by simpa using hok))
    · cases h
  | flushRetire =>
    dsimp only at h
    split_ifs at h
    cases h
    exact .flushRetire hj ‹_›
  | flushPurge kept =>
    dsimp only at h
    split at h
    · rename_i hstage
      split_ifs at h with hk
      · cases h
        subst hk
        exact .flushPurge hj hstage
      · cases h
        exact .flushPurgeFail hj hstage ‹_›
    · cases h
  | flushFail =>
    cases h
    exact .flushFail hj
  | _ => cases h

/-- The compaction cycle's part. -/
theorem step_of_compactAct {c : Cycle} (hc : w.cycle = some c)
    (h : w.compactAct crc c a = some w') : Step crc w a w' := by
  unfold World.compactAct at h
  cases a with
  | compactSample =>
    dsimp only at h
    split_ifs at h
    cases h
    exact .compactSample hc ‹_›
  | compactAllocate =>
    dsimp only at h
    split at h
    · rename_i oldest hstage
      split_ifs at h
      cases h
      exact .compactAllocate hc hstage ‹_›
    · cases h
  | compactWrite size =>
    dsimp only at h
    split at h
    · rename_i oldest id hstage
      cases h
      exact .compactWrite hc hstage
    · cases h
  | compactAdd fault =>
    dsimp only at h
    split at h
    · rename_i output size hstage
      split_ifs at h with hok
      · cases h
        exact .compactAdd hc hstage (Prod.ext rfl hok)
      · cases h
        exact .compactAddFail hc hstage (Prod.ext rfl (by simpa using hok))
    · cases h
  | compactRemove fault =>
    dsimp only at h
    split at h
    · rename_i output id rest hstage
      split_ifs at h with hok
      · cases h
        exact .compactRemove hc hstage (Prod.ext rfl hok)
      · cases h
        exact .compactRemoveFail hc hstage (Prod.ext rfl (by simpa using hok))
    · cases h
  | compactSplice =>
    dsimp only at h
    split at h
    · rename_i output hstage
      cases h
      exact .compactSplice hc hstage
    · cases h
  | compactAbort =>
    cases h
    exact .compactAbort hc
  | _ => cases h

theorem step_of_threads
    (h : (match w.flush, w.cycle with
      | some j, some c => (w.flushAct crc j a).or (w.compactAct crc c a)
      | some j, none => w.flushAct crc j a
      | none, some c => w.compactAct crc c a
      | none, none => none) = some w') : Step crc w a w' := by
  split at h
  · rename_i j c hj hc
    rcases Option.or_eq_some_iff.mp h with h | h
    · exact step_of_flushAct hj h
    · exact step_of_compactAct hc h.2
  · rename_i j hj _
    exact step_of_flushAct hj h
  · rename_i c _ hc
    exact step_of_compactAct hc h
  · cases h

/-- **A step that happens is one of the listed ones.** -/
theorem step_of_act (h : w.act crc a = some w') : Step crc w a w' := by
  cases a with
  | append op =>
    simp only [World.act] at h
    split_ifs at h with hg
    cases h
    exact .append hg.1 hg.2
  | fsync n =>
    simp only [World.act] at h
    split_ifs at h
    cases h
    exact .fsync ‹_›
  | rotateWal =>
    simp only [World.act] at h
    split_ifs at h
    cases h
    exact .rotateWal ‹_›
  | apply seq => exact step_of_apply h
  | flushRecv =>
    simp only [World.act] at h
    split at h
    · rename_i f ckpt rest hj hq
      cases h
      exact .flushRecv hj hq
    · cases h
  | compactCapture =>
    simp only [World.act] at h
    split_ifs at h with hg
    cases h
    exact .compactCapture hg.1 hg.2.2 hg.2.1
  | unlink id =>
    simp only [World.act] at h
    split_ifs at h
    cases h
    exact .unlink ‹_›
  | snapshotRead =>
    cases h
    exact .snapshotRead
  | snapshotRegister seq =>
    simp only [World.act] at h
    split_ifs at h
    cases h
    exact .snapshotRegister ‹_›
  | snapshotDrop seq =>
    simp only [World.act] at h
    split_ifs at h
    cases h
    exact .snapshotDrop ‹_›
  | reopen n k lost =>
    simp only [World.act] at h
    split_ifs at h with hg
    split at h
    · rename_i w1 hw
      cases h
      exact .reopen hg.1 hg.2.1 hg.2.2 hw
    · cases h
  | _ => exact step_of_threads h

/-- An invariant of the steps is an invariant of the runs. -/
theorem reach_invariant {C : World → Act → Prop} {w₀ : World} {P : World → Prop}
    (h : Reach (World.act crc) C w₀ w) (h0 : P w₀)
    (hstep : ∀ {w w' : World} {a : Act}, P w → C w a → Step crc w a w' → P w') : P w :=
  h.invariant h0 fun hp hc hs => hstep hp hc (step_of_act hs)

end RubixDb.Proof
