import RubixDb.Storage.Compaction
import RubixDb.Storage.Manifest
import RubixDb.Wal.Ops

/-!
# The LSM engine

`src/lsm/mod.rs` as a machine whose steps are the places where its threads can
interleave: a writer logs a record, the record becomes durable, the writer applies it
and perhaps freezes the MemTable; the flush thread turns frozen MemTables into tables,
one effect at a time; a compaction cycle captures its inputs, samples the oldest
snapshot, writes, records and splices its output; `snapshot()` reads the durable mark
and then registers it; and at any point the process may stop and be opened again.

The WAL is kept at the level of records here: an append is durable once an fsync has
covered it, and a crash loses records from the end, never a durable one.
-/

namespace RubixDb

open Lib

structure LsmConfig where
  memtableMaxSizeBytes : Nat
  maxImmutableMemtables : Nat
  compactionTriggerCount : Nat
  maxBatchOps : Nat
deriving DecidableEq, Repr

/-! ## Applying a record -/

/-- `apply_kv_to_memtable`. -/
def applyKvToMemtable (m : MemTable) (seq : Nat) (key : Key) : Option Bytes → MemTable
  | some value => m.put key seq value
  | none => m.delete key seq

def applyMember (seq : Nat) (m : MemTable) : GroupMember → MemTable
  | .put key value => applyKvToMemtable m seq key (some value)
  | .delete key => applyKvToMemtable m seq key none

/-- `apply_wal_op`; the live write paths insert the same entries in the same order. -/
def applyWalOp (m : MemTable) (seq : Nat) : WalOp → MemTable
  | .put key value => m.put key seq value
  | .delete key => m.delete key seq
  | .checkpointMarker _ => m
  | .group members => members.foldl (applyMember seq) m

/-- The versions a record stands for: of the members of a batch that share a key, the
last one wins. -/
def WalRecord.entries (r : WalRecord) : List Entry :=
  (applyWalOp (MemTable.new 0) r.seq r.op).map

/-- The requests the write paths accept: `write_batch` refuses an empty batch and one
above `max_batch_ops`, and only the flush thread logs markers. -/
def LsmConfig.accepts (cfg : LsmConfig) : WalOp → Bool
  | .put _ _ => true
  | .delete _ => true
  | .checkpointMarker _ => false
  | .group members => members ≠ [] ∧ members.length ≤ cfg.maxBatchOps

/-! ## The apply tracker -/

structure ApplyTracker where
  contiguous : Nat
  above : List Nat
deriving DecidableEq, Repr

namespace ApplyTracker

/-- The loop that moves the mark over the numbers waiting right above it. -/
def advance : Nat → ApplyTracker → ApplyTracker
  | 0, t => t
  | fuel + 1, t =>
    if t.contiguous + 1 ∈ t.above then
      advance fuel ⟨t.contiguous + 1, t.above.filter (· ≠ t.contiguous + 1)⟩
    else t

def account (t : ApplyTracker) (seq : Nat) : ApplyTracker :=
  if seq ≤ t.contiguous then t
  else
    let above := if seq ∈ t.above then t.above else seq :: t.above
    advance above.length ⟨t.contiguous, above⟩

end ApplyTracker

/-! ## The snapshot registry -/

/-- `BTreeMap<u64, u64>` of live snapshots: how many hold each sequence number. -/
abbrev SnapshotRegistry := List (Nat × Nat)

namespace SnapshotRegistry

def countOf (r : SnapshotRegistry) (seq : Nat) : Nat := ((r.find? (·.1 = seq)).map (·.2)).getD 0

def acquire (r : SnapshotRegistry) (seq : Nat) : SnapshotRegistry :=
  insertBy (·.1) (seq, countOf r seq + 1) r

def release (r : SnapshotRegistry) (seq : Nat) : SnapshotRegistry :=
  match r.find? (·.1 = seq) with
  | none => r
  | some (_, count) =>
    if count - 1 = 0 then r.filter (·.1 ≠ seq) else insertBy (·.1) (seq, count - 1) r

def oldest (r : SnapshotRegistry) : Option Nat := r.head?.map (·.1)

end SnapshotRegistry

/-! ## The state -/

/-- A WAL segment; `sealedMax` is its entry of `sealed_max_seq` once it is sealed. -/
structure WalSegment where
  id : Nat
  records : List WalRecord
  sealedMax : Nat
deriving DecidableEq, Repr

structure WalPosition where
  segmentId : Nat
  offset : UInt64
  seq : Nat
deriving DecidableEq, Repr

/-- A published table file and its length on disk. -/
structure SstFile where
  table : SsTable
  size : UInt64
deriving DecidableEq

/-- A frozen MemTable; `uid` is what `Arc::ptr_eq` tells apart. -/
structure FrozenTable where
  uid : Nat
  table : MemTable

/-- How far the flush thread is in one attempt. -/
inductive FlushStage where
  | start
  | write (id : Nat)
  | add (id : Nat) (size : UInt64)
  | install (id : Nat)
  | rotate
  | marker
  | await (position : WalPosition)
  | checkpoint
  | retire
  | purge
deriving DecidableEq, Repr

/-- The MemTable being flushed, its checkpoint, and what earlier attempts already did. -/
structure FlushJob where
  frozen : FrozenTable
  ckpt : Nat
  stage : FlushStage := .start
  published : Option Nat := none
  checkpointMarker : Option WalPosition := none
  checkpointRecorded : Bool := false

/-- How far a compaction cycle is. -/
inductive CycleStage where
  | captured
  | sampled (oldest : Option Nat)
  | allocated (oldest : Option Nat) (id : Nat)
  | written (output : SsTable) (size : UInt64)
  | removing (output : SsTable) (rest : List Nat)
deriving DecidableEq

structure Cycle where
  inputs : List SsTable
  stage : CycleStage
deriving DecidableEq

structure World where
  cfg : LsmConfig
  /-- WAL segments no longer written to, oldest first. -/
  sealed : List WalSegment
  activeSegment : WalSegment
  nextSeq : Nat
  /-- `durable_through`: every record up to here has been fsynced. -/
  durable : Nat
  files : List SstFile
  manifest : Manifest
  active : MemTable
  /-- Newest first. -/
  immutables : List FrozenTable
  nextUid : Nat
  tracker : ApplyTracker
  /-- The flush channel, oldest message first. -/
  queue : List (FrozenTable × Nat)
  flush : Option FlushJob
  /-- The live list, meant to be newest first. -/
  sstables : List SsTable
  nextId : Nat
  cycle : Option Cycle
  /-- Inputs of finished cycles whose files are still to be unlinked. -/
  garbage : List Nat
  registry : SnapshotRegistry
  /-- `snapshot()` calls that have read the durable mark and not yet registered it. -/
  reading : List Nat
  /-- Live `Snapshot` handles. -/
  snapshots : List Nat
  /-- Records logged by writers that have not applied them yet. -/
  pending : List WalRecord
  /-- Every record logged and not lost since. -/
  log : List WalRecord
  /-- Every record applied to a MemTable, or accounted for as needing no apply. -/
  applied : List WalRecord
  /-- Every record whose write call returned `Ok`. -/
  acked : List WalRecord

/-! ## Opening -/

/-- The sequence number of a segment's last record, zero if it has none. -/
def lastSeq (records : List WalRecord) : Nat := (records.getLast?.map (·.seq)).getD 0

/-- All records of some segments, in log order. -/
def segmentRecords (segments : List WalSegment) : List WalRecord :=
  (segments.map (·.records)).flatten

/-- The WAL replay of `LsmEngine::open`: records at or below the checkpoint are skipped. -/
def replayWal (m : MemTable) (ckpt : Nat) (records : List WalRecord) : MemTable :=
  records.foldl (fun m r => if r.seq ≤ ckpt then m else applyWalOp m r.seq r.op) m

/-- What stops `LsmEngine::open`. -/
inductive OpenError where
  | manifest (err : ManifestError)
  | state (err : StateError)
  | missingTable (id : Nat)
deriving DecidableEq, Repr

/-- What `reconcile_sstables_with_manifest` has built so far. -/
structure Reconciled where
  manifest : Manifest
  state : ManifestState
  /-- Opened tables, in ascending id order. -/
  opened : List SsTable
  /-- The files left in the directory. -/
  kept : List SstFile

section Open

variable (crc : Bytes → UInt32)

/-- One directory entry: a live table is opened, a removed one deleted, and one the
manifest has never heard of is recorded and adopted. -/
def reconcileFile (acc : Reconciled) (f : SstFile) : Except OpenError Reconciled :=
  let id := f.table.id
  if acc.state.isLive id then
    .ok { acc with opened := insertBy (·.id) f.table acc.opened, kept := acc.kept ++ [f] }
  else if id ∈ acc.state.everAdded then .ok acc
  else
    let edit := .addSstable id f.table.minSeq f.table.maxSeq f.size.toNat
    match acc.state.apply edit with
    | .error e => .error (.state e)
    | .ok st =>
      .ok ⟨(acc.manifest.appendSync crc edit .none).1, st,
        insertBy (·.id) f.table acc.opened, acc.kept ++ [f]⟩

def reconcileFiles (acc : Reconciled) : List SstFile → Except OpenError Reconciled
  | [] => .ok acc
  | f :: fs =>
    match reconcileFile crc acc f with
    | .ok acc' => reconcileFiles acc' fs
    | .error e => .error e

/-- `reconcile_sstables_with_manifest`: the tables newest id first, the next id, and the
directory and manifest it leaves. -/
def reconcileSstablesWithManifest (files : List SstFile) (m : Manifest) (st : ManifestState) :
    Except OpenError (List SsTable × Nat × Reconciled) :=
  match reconcileFiles crc ⟨m, st, [], []⟩ files with
  | .error e => .error e
  | .ok acc =>
    match acc.state.liveSstables.find? fun l => ¬ files.any (·.table.id = l.1) with
    | some l => .error (.missingTable l.1)
    | none =>
      let maxId := max ((files.map (·.table.id)).foldr max 0)
        (max (acc.state.everAdded.foldr max 0)
          ((acc.state.liveSstables.map (·.1)).foldr max 0))
      .ok (acc.opened.reverse, maxId + 1, acc)

/-- `LsmEngine::open` on the bytes of the manifest, the WAL segments and the table files
it finds. `floor` is the checkpoint the WAL's numbering must stay above. -/
def openEngine (cfg : LsmConfig) (segments : List WalSegment) (manifestFile : Bytes)
    (synced : Nat) (files : List SstFile) : Except OpenError World :=
  match Manifest.openFile crc manifestFile synced with
  | .error e => .error (.manifest e)
  | .ok (m, r) =>
    match reconcileSstablesWithManifest crc files m r.state with
    | .error e => .error e
    | .ok (tables, nextId, acc) =>
      let ckpt := r.state.checkpointSeq
      let records := segmentRecords segments
      let last := lastSeq records
      -- `open_for_recovery`, then `ensure_next_seq_at_least(ckpt + 1)`
      let nextSeq := max (last + 1) (ckpt + 1)
      .ok {
        cfg := cfg
        sealed := segments.dropLast.map fun s => { s with sealedMax := lastSeq s.records }
        activeSegment := segments.getLast?.getD ⟨1, [], 0⟩
        nextSeq := nextSeq
        durable := nextSeq - 1
        files := acc.kept
        manifest := acc.manifest
        active := replayWal (MemTable.new cfg.memtableMaxSizeBytes) ckpt records
        immutables := []
        nextUid := 0
        tracker := ⟨max last ckpt, []⟩
        queue := []
        flush := none
        sstables := tables
        nextId := nextId
        cycle := none
        garbage := []
        registry := []
        reading := []
        snapshots := []
        pending := []
        log := records
        applied := records
        acked := [] }

end Open

/-- A database directory that does not exist yet, opened. -/
def World.init (cfg : LsmConfig) : World where
  cfg := cfg
  sealed := []
  activeSegment := ⟨1, [], 0⟩
  nextSeq := 1
  durable := 0
  files := []
  manifest := {}
  active := MemTable.new cfg.memtableMaxSizeBytes
  immutables := []
  nextUid := 0
  tracker := ⟨0, []⟩
  queue := []
  flush := none
  sstables := []
  nextId := 1
  cycle := none
  garbage := []
  registry := []
  reading := []
  snapshots := []
  pending := []
  log := []
  applied := []
  acked := []

/-! ## Reading -/

/-- The sources of a point read, in the order they are asked. -/
def World.sources (w : World) : List (List Entry) :=
  w.active.map :: (w.immutables.map (·.table.map) ++ w.sstables.map (·.records))

/-- The version `get_as_of` stops at. -/
def World.lookup (w : World) (key : Key) (asOf : Nat) : Option Entry :=
  (w.active.getAsOf key asOf).or
    ((w.immutables.findSome? fun f => f.table.getAsOf key asOf).or
      (w.sstables.findSome? fun t => t.getVersioned key asOf))

/-- `resolve`/`resolve_sstable`: a tombstone reads as nothing. -/
def resolve : MemtableValue → Option Bytes
  | .put v => some v
  | .tombstone => none

def World.getAsOf (w : World) (key : Key) (asOf : Nat) : Option Bytes :=
  (w.lookup key asOf).bind fun e => resolve e.value

def World.get (w : World) (key : Key) : Option Bytes := w.getAsOf key u64Max

/-! ## Steps -/

/-- What a thread, or the environment, does next. -/
inductive Act where
  /-- A writer's request is logged under the next sequence number. -/
  | append (op : WalOp)
  /-- An fsync has covered everything up to `n`. -/
  | fsync (n : Nat)
  /-- The WAL rotates because its active segment is full. -/
  | rotateWal
  /-- `apply_after_durable`/`apply_batch_after_durable`, with the freeze it may take. -/
  | apply (seq : Nat)
  /-- The flush thread takes the next message. -/
  | flushRecv
  /-- `next_sstable_id.fetch_add`, or, on a retry of a published table, on to the list. -/
  | flushBegin
  | flushWrite (size : UInt64)
  | flushAdd (fault : AppendFault)
  | flushInstall
  | flushRotate
  | flushMarker (offset : UInt64)
  | flushAwait
  | flushCheckpoint (fault : AppendFault)
  | flushRetire
  /-- `purge_before`; segments in `kept` could not be unlinked, which fails the attempt. -/
  | flushPurge (kept : List Nat)
  /-- The attempt fails or panics where it is and is retried. -/
  | flushFail
  | compactCapture
  | compactSample
  | compactAllocate
  | compactWrite (size : UInt64)
  | compactAdd (fault : AppendFault)
  | compactRemove (fault : AppendFault)
  | compactSplice
  /-- The cycle ends with an error. -/
  | compactAbort
  /-- An input of a finished cycle is unlinked. -/
  | unlink (id : Nat)
  | snapshotRead
  | snapshotRegister (seq : Nat)
  | snapshotDrop (seq : Nat)
  /-- The process stops and opens again: `n` manifest bytes and the WAL records up to `k`
  are still there, and the unrecorded table files in `lost` are not. -/
  | reopen (n k : Nat) (lost : List Nat)
deriving DecidableEq, Repr

namespace World

/-- A record is logged. -/
def logRecord (w : World) (op : WalOp) : World :=
  { w with
    activeSegment :=
      { w.activeSegment with records := w.activeSegment.records ++ [⟨w.nextSeq, op⟩] }
    nextSeq := w.nextSeq + 1
    log := w.log ++ [⟨w.nextSeq, op⟩] }

/-- `FileWal::rotate`, seen from above. -/
def rotate (w : World) : World :=
  { w with
    sealed := w.sealed ++ [{ w.activeSegment with
      sealedMax := if w.activeSegment.records = [] then 0 else w.nextSeq - 1 }]
    activeSegment := ⟨w.activeSegment.id + 1, [], 0⟩ }

/-- The record is in the active MemTable and accounted for. -/
def applyRecord (w : World) (r : WalRecord) : World :=
  { w with
    active := applyWalOp w.active r.seq r.op
    tracker := w.tracker.account r.seq
    pending := w.pending.filter (· ≠ r)
    applied := w.applied ++ [r] }

/-- `freeze_locked`, once there is room for another immutable. -/
def freeze (w : World) : World :=
  { w with
    active := MemTable.new w.cfg.memtableMaxSizeBytes
    immutables := ⟨w.nextUid, w.active⟩ :: w.immutables
    nextUid := w.nextUid + 1
    queue := w.queue ++ [(⟨w.nextUid, w.active⟩, w.tracker.contiguous)] }

def ack (w : World) (r : WalRecord) : World := { w with acked := w.acked ++ [r] }

/-- The write path after the record is durable: a full MemTable is frozen, and if there
is no room for it the call fails although the record stays applied. -/
def finishApply (w : World) (r : WalRecord) : World :=
  if (w.applyRecord r).active.isFull then
    if w.cfg.maxImmutableMemtables ≤ w.immutables.length then w.applyRecord r
    else ((w.applyRecord r).freeze).ack r
  else (w.applyRecord r).ack r

def addFile (w : World) (f : SstFile) : World := { w with files := w.files ++ [f] }

def setManifest (w : World) (m : Manifest) : World := { w with manifest := m }

/-- `next_sstable_id.fetch_add(1)`. -/
def takeId (w : World) : World := { w with nextId := w.nextId + 1 }

def setCycle (w : World) (c : Option Cycle) : World := { w with cycle := c }

/-- A sequence number no writer will ever apply is accounted for. -/
def accountMarker (w : World) (seq ckpt : Nat) : World :=
  { w with
    tracker := w.tracker.account seq
    applied := w.applied ++ [⟨seq, .checkpointMarker ckpt⟩] }

/-- Drop the flushed MemTable from the immutables. -/
def retire (w : World) (f : FrozenTable) : World :=
  { w with immutables := w.immutables.filter (·.uid ≠ f.uid) }

/-- The flush thread moves to the given stage. -/
def flushTo (w : World) (j : FlushJob) (stage : FlushStage) : World :=
  { w with flush := some { j with stage := stage } }

/-- The attempt failed: the same MemTable is tried again from the start. -/
def flushRetry (w : World) (j : FlushJob) : World := w.flushTo j .start

/-- `list.insert(0, table)`. -/
def install (w : World) (t : SsTable) : World := { w with sstables := t :: w.sstables }

/-- The segments `purge_before(ckpt)` leaves when those in `kept` cannot be unlinked. -/
def purgeBefore (w : World) (ckpt : Nat) (kept : List Nat) : World :=
  { w with sealed := w.sealed.filter fun s => ¬ s.sealedMax < ckpt ∨ s.id ∈ kept }

/-- The splice: drop the inputs from the list and put the output in front. -/
def splice (w : World) (inputs : List SsTable) (output : SsTable) : World :=
  let rest := w.sstables.filter fun t => ¬ inputs.any (·.id = t.id)
  { w with
    sstables := if rest.any (·.id = output.id) then rest else output :: rest
    cycle := none
    garbage := w.garbage ++ inputs.map (·.id) }

/-- The segments a crash leaves when it cuts the log after sequence number `k`. -/
def cutSegments (w : World) (k : Nat) : List WalSegment :=
  (w.sealed ++ [w.activeSegment]).map fun s =>
    { s with records := s.records.filter (·.seq ≤ k) }

end World

section Act

variable (crc : Bytes → UInt32)

/-- The edit that records a published file. -/
def addEdit (t : SsTable) (size : UInt64) : ManifestEdit :=
  .addSstable t.id t.minSeq t.maxSeq size.toNat

/-- The step of the flush thread at its present stage. -/
def World.flushAct (w : World) (j : FlushJob) : Act → Option World
  | .flushBegin =>
    match j.stage, j.published with
    | .start, none =>
      if w.nextId < u64Max then some (w.takeId.flushTo j (.write w.nextId)) else none
    | .start, some id => some (w.flushTo j (.install id))
    | _, _ => none
  | .flushWrite size =>
    match j.stage with
    | .write id =>
      some ((w.addFile ⟨writeFromMemtable j.frozen.table id, size⟩).flushTo j (.add id size))
    | _ => none
  | .flushAdd fault =>
    match j.stage with
    | .add id size =>
      let r := w.manifest.appendSync crc (addEdit (writeFromMemtable j.frozen.table id) size) fault
      if r.2 then
        some ((w.setManifest r.1).flushTo { j with published := some id } (.install id))
      else some ((w.setManifest r.1).flushRetry j)
    | _ => none
  | .flushInstall =>
    match j.stage with
    | .install id =>
      -- the table is opened only if the list does not have it yet
      if w.sstables.any (·.id = id) then some (w.flushTo j .rotate)
      else
        match w.files.find? (·.table.id = id) with
        | none => some (w.flushRetry j)
        | some f => some ((w.install f.table).flushTo j .rotate)
    | _ => none
  | .flushRotate =>
    if j.stage = .rotate ∧ w.activeSegment.id < u64Max then
      some (w.rotate.flushTo j (if j.checkpointMarker = none then .marker else .checkpoint))
    else none
  | .flushMarker offset =>
    if j.stage = .marker ∧ w.nextSeq < u64Max then
      some ((w.logRecord (.checkpointMarker j.ckpt)).flushTo j
        (.await ⟨w.activeSegment.id, offset, w.nextSeq⟩))
    else none
  | .flushAwait =>
    match j.stage with
    | .await p =>
      if p.seq ≤ w.durable then
        some ((w.accountMarker p.seq j.ckpt).flushTo { j with checkpointMarker := some p }
          .checkpoint)
      else none
    | _ => none
  | .flushCheckpoint fault =>
    match j.stage, j.checkpointMarker with
    | .checkpoint, some p =>
      if j.checkpointRecorded then some (w.flushTo j .retire)
      else
        let r := w.manifest.appendSync crc
          (.setCheckpoint j.ckpt p.segmentId p.offset.toNat) fault
        if r.2 then
          some ((w.setManifest r.1).flushTo { j with checkpointRecorded := true } .retire)
        else some ((w.setManifest r.1).flushRetry j)
    | _, _ => none
  | .flushRetire =>
    if j.stage = .retire then some ((w.retire j.frozen).flushTo j .purge) else none
  | .flushPurge kept =>
    if j.stage = .purge then
      if kept = [] then some { w.purgeBefore j.ckpt [] with flush := none }
      else some ((w.purgeBefore j.ckpt kept).flushRetry j)
    else none
  | .flushFail => some (w.flushRetry j)
  | _ => none

/-- The step of a compaction cycle at its present stage. -/
def World.compactAct (w : World) (c : Cycle) : Act → Option World
  | .compactSample =>
    if c.stage = .captured then
      some (w.setCycle (some ⟨c.inputs, .sampled w.registry.oldest⟩))
    else none
  | .compactAllocate =>
    match c.stage with
    | .sampled oldest =>
      if w.nextId < u64Max then
        some (w.takeId.setCycle (some ⟨c.inputs, .allocated oldest w.nextId⟩))
      else none
    | _ => none
  | .compactWrite size =>
    match c.stage with
    | .allocated oldest id =>
      some ((w.addFile ⟨mergeTable c.inputs oldest id, size⟩).setCycle
        (some ⟨c.inputs, .written (mergeTable c.inputs oldest id) size⟩))
    | _ => none
  | .compactAdd fault =>
    match c.stage with
    | .written output size =>
      let r := w.manifest.appendSync crc (addEdit output size) fault
      if r.2 then
        some ((w.setManifest r.1).setCycle
          (some ⟨c.inputs, .removing output (c.inputs.map (·.id))⟩))
      else some ((w.setManifest r.1).setCycle none)
    | _ => none
  | .compactRemove fault =>
    match c.stage with
    | .removing output (id :: rest) =>
      let r := w.manifest.appendSync crc (.removeSstable id) fault
      if r.2 then
        some ((w.setManifest r.1).setCycle (some ⟨c.inputs, .removing output rest⟩))
      else some ((w.setManifest r.1).setCycle none)
    | _ => none
  | .compactSplice =>
    match c.stage with
    | .removing output [] => some (w.splice c.inputs output)
    | _ => none
  | .compactAbort => some (w.setCycle none)
  | _ => none

/-- One step. -/
def World.act (w : World) : Act → Option World
  | .append op =>
    if w.cfg.accepts op ∧ w.nextSeq < u64Max then
      some { w.logRecord op with pending := w.pending ++ [⟨w.nextSeq, op⟩] }
    else none
  | .fsync n => if n < w.nextSeq then some { w with durable := max w.durable n } else none
  | .rotateWal => if w.activeSegment.id < u64Max then some w.rotate else none
  | .apply seq =>
    match w.pending.find? (·.seq = seq) with
    | some r => if r.seq ≤ w.durable then some (w.finishApply r) else none
    | none => none
  | .flushRecv =>
    match w.flush, w.queue with
    | none, (f, ckpt) :: rest =>
      some { w with queue := rest, flush := some ⟨f, ckpt, .start, none, none, false⟩ }
    | _, _ => none
  | .compactCapture =>
    if w.cycle = none ∧ w.cfg.compactionTriggerCount ≤ w.sstables.length ∧ w.sstables ≠ [] then
      some (w.setCycle (some ⟨w.sstables, .captured⟩))
    else none
  | .unlink id =>
    if id ∈ w.garbage then
      some { w with
        files := w.files.filter (·.table.id ≠ id)
        garbage := w.garbage.filter (· ≠ id) }
    else none
  | .snapshotRead => some { w with reading := w.reading ++ [w.durable] }
  | .snapshotRegister seq =>
    if seq ∈ w.reading then
      some { w with
        reading := w.reading.erase seq
        registry := w.registry.acquire seq
        snapshots := w.snapshots ++ [seq] }
    else none
  | .snapshotDrop seq =>
    if seq ∈ w.snapshots then
      some { w with registry := w.registry.release seq, snapshots := w.snapshots.erase seq }
    else none
  | .reopen n k lost =>
    if w.manifest.synced ≤ n ∧ n ≤ w.manifest.file.length ∧ w.durable ≤ k then
      match openEngine crc w.cfg (w.cutSegments k) (w.manifest.file.take n) w.manifest.synced
          (w.files.filter fun f => f.table.id ∉ lost) with
      | .ok w' =>
        some { w' with
          log := w.log.filter (·.seq ≤ k)
          applied := w.log.filter (·.seq ≤ k)
          acked := w.acked }
      | .error _ => none
    else none
  | a =>
    match w.flush, w.cycle with
    | some j, some c => (w.flushAct crc j a).or (w.compactAct crc c a)
    | some j, none => w.flushAct crc j a
    | none, some c => w.compactAct crc c a
    | none, none => none

end Act

end RubixDb
