import RubixDb.Lib.Framing
import RubixDb.Storage.MemTable

/-!
# The manifest

`src/manifest`: an append-only file of framed edits that says which SSTables are
live and through which sequence number the WAL has been flushed. `append_sync`
writes one frame and fsyncs it; `replay` walks the file from the start.

The file is modelled byte for byte together with the handle's own idea of where it
ends (`len`), because the two can drift apart: a failed fsync leaves the frame in
the file and does not advance `len`, and a later failed write rolls the file back to
`len`. Which call fails is chosen by the environment (`AppendFault`).
-/

namespace RubixDb

open Lib

inductive ManifestEdit where
  | addSstable (id minSeq maxSeq fileSize : Nat)
  | removeSstable (id : Nat)
  | setCheckpoint (flushedThroughSeq walSegmentId walOffset : Nat)
deriving DecidableEq, Repr

/-! ## Format -/

def encodeBody : ManifestEdit → Bytes
  | .addSstable id minSeq maxSeq fileSize =>
    1 :: (leBytes 8 id ++ (leBytes 8 minSeq ++ (leBytes 8 maxSeq ++ leBytes 8 fileSize)))
  | .removeSstable id => 2 :: leBytes 8 id
  | .setCheckpoint flushedThroughSeq walSegmentId walOffset =>
    3 :: (leBytes 8 flushedThroughSeq ++ (leBytes 8 walSegmentId ++ leBytes 8 walOffset))

/-- Why a body is not an edit. -/
inductive EditError where
  | emptyBody
  | addLength (got : Nat)
  | removeLength (got : Nat)
  | checkpointLength (got : Nat)
  | minAboveMax (id minSeq maxSeq : Nat)
  | unknownType (tag : UInt8)
deriving DecidableEq, Repr

def readU64 (buf : Bytes) (pos : Nat) : Nat := leNat ((buf.drop pos).take 8)

def decodeBody (body : Bytes) : Except EditError ManifestEdit :=
  match body with
  | [] => .error .emptyBody
  | tag :: _ =>
    if tag = 1 then
      if body.length ≠ 33 then .error (.addLength body.length)
      else if readU64 body 17 < readU64 body 9 then
        .error (.minAboveMax (readU64 body 1) (readU64 body 9) (readU64 body 17))
      else .ok (.addSstable (readU64 body 1) (readU64 body 9) (readU64 body 17) (readU64 body 25))
    else if tag = 2 then
      if body.length ≠ 9 then .error (.removeLength body.length)
      else .ok (.removeSstable (readU64 body 1))
    else if tag = 3 then
      if body.length ≠ 25 then .error (.checkpointLength body.length)
      else .ok (.setCheckpoint (readU64 body 1) (readU64 body 9) (readU64 body 17))
    else .error (.unknownType tag)

/-- Every field fits its eight bytes, and a table's range is not upside down. -/
def ManifestEdit.Wf : ManifestEdit → Prop
  | .addSstable id minSeq maxSeq fileSize =>
    id ≤ u64Max ∧ minSeq ≤ maxSeq ∧ maxSeq ≤ u64Max ∧ fileSize ≤ u64Max
  | .removeSstable id => id ≤ u64Max
  | .setCheckpoint flushedThroughSeq walSegmentId walOffset =>
    flushedThroughSeq ≤ u64Max ∧ walSegmentId ≤ u64Max ∧ walOffset ≤ u64Max

/-! ## State -/

structure SstableManifestEntry where
  minSeq : Nat
  maxSeq : Nat
  fileSize : Nat
deriving DecidableEq, Repr

structure CheckpointState where
  flushedThroughSeq : Nat
  walSegmentId : Nat
  walOffset : Nat
deriving DecidableEq, Repr

structure ManifestState where
  liveSstables : List (Nat × SstableManifestEntry) := []
  everAdded : List Nat := []
  checkpoint : Option CheckpointState := none
deriving DecidableEq, Repr

/-- Why an edit does not fit the state it is applied to. -/
inductive StateError where
  | removeNeverAdded (id : Nat)
  | checkpointRegression (flushedThroughSeq current : Nat)
deriving DecidableEq, Repr

namespace ManifestState

def checkpointSeq (st : ManifestState) : Nat := st.checkpoint.elim 0 (·.flushedThroughSeq)

/-- `live_sstables.contains_key(&id)`. -/
def isLive (st : ManifestState) (id : Nat) : Bool := st.liveSstables.any (·.1 = id)

def apply (st : ManifestState) : ManifestEdit → Except StateError ManifestState
  | .addSstable id minSeq maxSeq fileSize =>
    .ok { st with
      everAdded := id :: st.everAdded
      liveSstables :=
        if st.isLive id then st.liveSstables
        else (id, ⟨minSeq, maxSeq, fileSize⟩) :: st.liveSstables }
  | .removeSstable id =>
    if id ∈ st.everAdded then
      .ok { st with liveSstables := st.liveSstables.filter (·.1 ≠ id) }
    else .error (.removeNeverAdded id)
  | .setCheckpoint flushedThroughSeq walSegmentId walOffset =>
    if st.checkpoint.any fun c => flushedThroughSeq < c.flushedThroughSeq then
      .error (.checkpointRegression flushedThroughSeq st.checkpointSeq)
    else .ok { st with checkpoint := some ⟨flushedThroughSeq, walSegmentId, walOffset⟩ }

/-- Apply the edits in order. -/
def applyAll (st : ManifestState) : List ManifestEdit → Except StateError ManifestState
  | [] => .ok st
  | e :: es =>
    match st.apply e with
    | .ok st' => applyAll st' es
    | .error err => .error err

end ManifestState

/-! ## Replay -/

def maxEditBodyLen : Nat := 64

structure ManifestReplayResult where
  state : ManifestState := {}
  validLength : Nat := 0
  truncated : Bool := false
deriving DecidableEq, Repr

/-- The ways `replay` refuses a manifest, with the offset it names. -/
inductive ManifestError where
  | implausibleLength (pos len : Nat)
  | checksumMismatch (pos : Nat)
  | badEdit (pos : Nat) (err : EditError)
  | badState (pos : Nat) (err : StateError)
deriving DecidableEq, Repr

section Replay

variable (crc : Bytes → UInt32)

def encodeFrame (edit : ManifestEdit) : Bytes := frame crc (encodeBody edit)

/-- `lost_first_sector_tail` of the manifest: no limit on how much it checksums. -/
def manifestLostSector (pos : Nat) (tail : Bytes) : Bool :=
  lostFirstSector crc (fun b => (decodeBody b).isOk) maxEditBodyLen none pos tail

/-- The replay loop; `bs` are the bytes from `pos` to the end of the file. -/
def replayLoop : Nat → Nat → Bytes → ManifestState → Except ManifestError ManifestReplayResult
  | 0, pos, _, st => .ok ⟨st, pos, false⟩
  | fuel + 1, pos, bs, st =>
    let torn : Except ManifestError ManifestReplayResult := .ok ⟨st, pos, true⟩
    match frameHead crc maxEditBodyLen bs with
    | .done => .ok ⟨st, pos, false⟩
    | .shortHeader => torn
    | .zeroTail => torn
    | .oversized len =>
      if manifestLostSector crc pos bs then torn else .error (.implausibleLength pos len)
    | .shortBody _ => torn
    | .badCrc len =>
      if 8 + len = bs.length then torn
      else if manifestLostSector crc pos bs then torn
      else .error (.checksumMismatch pos)
    | .intact body rest =>
      match decodeBody body with
      | .error e => if manifestLostSector crc pos bs then torn else .error (.badEdit pos e)
      | .ok edit =>
        match st.apply edit with
        | .error e => .error (.badState pos e)
        | .ok st' => replayLoop fuel (pos + 8 + body.length) rest st'

def replayManifest (file : Bytes) : Except ManifestError ManifestReplayResult :=
  replayLoop crc (file.length + 1) 0 file {}

/-! ## The open handle -/

/-- The file, how much of it the last successful fsync covered, and the handle's fields. -/
structure Manifest where
  file : Bytes := []
  synced : Nat := 0
  len : Nat := 0
  poisoned : Bool := false
deriving DecidableEq, Repr

/-- Which call of the rollback after a failed write fails, if any. -/
inductive RollbackFault where
  | none
  | setLen
  | seek
  | sync
deriving DecidableEq, Repr

/-- Which call of `append_sync` fails, if any; a failed write gets `n` bytes out first. -/
inductive AppendFault where
  | none
  | write (n : Nat) (rollback : RollbackFault)
  | sync
deriving DecidableEq, Repr

namespace Manifest

/-- `set_len(self.len)`, seek, `sync_all` after a failed write; any failure poisons. -/
def rollback (m : Manifest) : RollbackFault → Manifest
  | .none => { m with file := m.file.take m.len, synced := min m.len m.file.length }
  | .setLen => { m with poisoned := true }
  | .seek => { m with file := m.file.take m.len, synced := min m.synced m.len, poisoned := true }
  | .sync => { m with file := m.file.take m.len, synced := min m.synced m.len, poisoned := true }

/-- `append_sync`: the handle afterwards and whether the call returned `Ok`. -/
def appendSync (m : Manifest) (edit : ManifestEdit) (fault : AppendFault) : Manifest × Bool :=
  if m.poisoned then (m, false)
  else
    let written := m.file ++ encodeFrame crc edit
    match fault with
    | .write n rb =>
      (({ m with file := m.file ++ (encodeFrame crc edit).take n }).rollback rb, false)
    | .sync => ({ m with file := written }, false)
    | .none =>
      ({ m with
          file := written
          synced := written.length
          len := m.len + (encodeFrame crc edit).length }, true)

/-- `open_after_exclusive_lock` on the bytes found: replay, cut a torn tail. What is
read back is not thereby synced. -/
def openFile (file : Bytes) (synced : Nat) :
    Except ManifestError (Manifest × ManifestReplayResult) :=
  match replayManifest crc file with
  | .error e => .error e
  | .ok r =>
    .ok (⟨if r.truncated then file.take r.validLength else file, min synced r.validLength,
      r.validLength, false⟩, r)

end Manifest

end Replay

end RubixDb
