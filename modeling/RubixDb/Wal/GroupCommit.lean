import RubixDb.Lib.SyncedLog
import RubixDb.Wal.Format

/-!
# Group commit

`src/wal/group_commit.rs` over `FileWal` (`src/wal/mod.rs`, `src/wal/file_io.rs`). Callers
append through a flat combiner, which writes a whole batch of frames under the WAL lock and
rotates the segment when it is full; callers then wait until their number is durable. One
waiter at a time is elected leader: it captures the active segment and the last number given
out, syncs the segment outside every lock, and publishes the number.

A step is what one thread does between two points at which another may run. The WAL lock is
held from `drain` to `groupEnd`, so no capture and no other rotation falls in between; the
leader's fsync may. How an operation of the file system ends is part of the step.

Left out: the length of the batch window, the latency estimate and the statistics, which
decide when things happen and never what; and `purge_before`.
-/

namespace RubixDb.GroupCommit

open Lib

/-- `APPEND_COMBINE_MAX_OPS`. -/
def appendCombineMaxOps : Nat := 4096

inductive PoisonReason where
  | fsyncFailed
  | leaderPanicked
deriving DecidableEq, Repr

inductive AppendError where
  | encode (err : WalError)
  | groupWrite
  | rotate
  | emptyQueue
  | combinerPanicked
deriving DecidableEq, Repr

/-- `WalPosition`. -/
structure Position where
  segmentId : Nat
  offset : Nat
  seq : Nat
deriving DecidableEq, Repr

/-- What `await_durable` returns. -/
inductive Answer where
  | ok
  | poisoned (reason : PoisonReason)
  | shuttingDown
  | capacityExceeded (requested max : Nat)
  | timeout
  /-- The leader's own error. -/
  | io
deriving DecidableEq, Repr

/-- How far the leader has come in `run_as_leader`. -/
inductive LeaderPhase where
  | elected
  /-- `snapshot_sync_target` has returned. -/
  | captured (segmentId batchMaxSeq : Nat)
  /-- The fsync is running; the segment held `present` frames when it began. -/
  | syncing (segmentId batchMaxSeq present : Nat)
  | synced (batchMaxSeq : Nat)
  | published
deriving DecidableEq, Repr

/-- The thread inside `run_as_leader` and the number its own call waits for. -/
structure Leader where
  seq : Nat
  phase : LeaderPhase
deriving DecidableEq, Repr

/-- How `SegmentIo::append` ends. -/
inductive WriteOutcome where
  | written
  /-- The write fails; the file is cut back and synced. -/
  | rolledBack
  /-- The write fails and so does cutting the file back. -/
  | truncateFails
  /-- The write fails, the file is cut back, and the fsync of that fails. -/
  | rollbackSyncFails
deriving DecidableEq, Repr

/-- How `FileWal::rotate` ends. -/
inductive RotateOutcome where
  | rotated
  | createFails
  /-- The fsync that seals the old segment fails. -/
  | sealFails
deriving DecidableEq, Repr

section Model

variable (crc : Bytes → UInt32) (maxRecordLen : Nat)

/-- A frame with the record it encodes: what stands in a segment is complete. -/
structure Frame where
  seq : Nat
  op : WalOp
  bytes : Bytes
  encoded : encodeWalFrame crc seq op maxRecordLen = .ok bytes

/-- `SegmentIo`, with the syncs its file has seen. -/
structure Segment where
  id : Nat
  log : SyncedLog (Frame crc maxRecordLen) := {}
  poisoned : Bool := false

/-- The locals of `append_group` at the head of its loop. Callers are known by the number
of their slot. -/
structure Group where
  pending : List (Nat × WalOp)
  run : List (Nat × Frame crc maxRecordLen) := []
  seq : Nat
  failed : Bool := false
  results : List (Nat × Except AppendError Position) := []

/-- The committer with its `FileWal`. The last two fields record what has happened. -/
structure Committer where
  maxSegmentSize : Nat
  maxPendingWaiters : Nat
  /-- Sealed when the committer was made, and since. -/
  recovered : List (Segment crc maxRecordLen)
  sealed : List (Segment crc maxRecordLen) := []
  active : Segment crc maxRecordLen
  /-- The first number this committer gives out. -/
  firstSeq : Nat
  nextSeq : Nat
  durableThrough : Nat
  poisoned : Option PoisonReason := none
  /-- `leader_active` is whether there is one. -/
  leader : Option Leader := none
  /-- The numbers of the calls inside `await_durable`, the leader's apart. -/
  waiters : List Nat := []
  shuttingDown : Bool := false
  queue : List (Nat × WalOp) := []
  nextSlot : Nat := 0
  /-- The slot whose thread has, or has been handed, the combiner's role; `combining` is
  whether there is one. -/
  combiner : Option Nat := none
  /-- The batch inside `append_group`, which holds the WAL lock. -/
  group : Option (Group crc maxRecordLen) := none
  done : List (Nat × Except AppendError Position) := []
  /-- What `await_durable` has returned so far, and for which number. -/
  answers : List (Nat × Answer) := []
  /-- The frames an fsync has failed on before one covered them, each with the number of
  answers given until then. -/
  lost : List (Nat × Nat) := []

end Model

variable {crc : Bytes → UInt32} {maxRecordLen : Nat}

def encodeFrame (crc : Bytes → UInt32) (maxRecordLen seq : Nat) (op : WalOp) :
    Except WalError (Frame crc maxRecordLen) :=
  match h : encodeWalFrame crc seq op maxRecordLen with
  | .ok bytes => .ok ⟨seq, op, bytes, h⟩
  | .error e => .error e

def framesLen (frames : List (Frame crc maxRecordLen)) : Nat :=
  (frames.map (·.bytes.length)).sum

def Segment.size (s : Segment crc maxRecordLen) : Nat := segmentHeaderLen + framesLen s.log.items

/-- `GroupCommitter::new` on a recovered `FileWal` whose last number is `durableSeq`: it
returns only after an fsync of the active segment. -/
def Committer.new (maxSegmentSize maxPendingWaiters : Nat)
    (recovered : List (Segment crc maxRecordLen)) (active : Segment crc maxRecordLen)
    (durableSeq : Nat) : Committer crc maxRecordLen where
  maxSegmentSize := maxSegmentSize
  maxPendingWaiters := maxPendingWaiters
  recovered := recovered
  active := { active with log := active.log.syncAll, poisoned := false }
  firstSeq := durableSeq + 1
  nextSeq := durableSeq + 1
  durableThrough := durableSeq

namespace Committer

/-- The fsync of the active segment has failed: what none has covered may be gone. -/
def lose (c : Committer crc maxRecordLen) : Committer crc maxRecordLen :=
  { c with lost := c.lost ++ c.active.log.uncovered.map fun f => (f.seq, c.answers.length) }

def answer (c : Committer crc maxRecordLen) (seq : Nat) (a : Answer) : Committer crc maxRecordLen :=
  { c with answers := c.answers ++ [(seq, a)] }

/-! ## Appending -/

/-- `FileWal::rotate`: the new segment is created first, and nothing has changed if that or
the fsync of the old one fails. A poisoned segment refuses the fsync without trying. -/
def rotate (c : Committer crc maxRecordLen) : RotateOutcome → Committer crc maxRecordLen × Bool
  | .createFails => (c, false)
  | .sealFails => if c.active.poisoned then (c, false) else (c.lose, false)
  | .rotated =>
    if c.active.poisoned ∨ u64Max ≤ c.active.id then (c, false)
    else ({ c with
      sealed := c.sealed ++ [{ c.active with log := c.active.log.syncAll }]
      active := { id := c.active.id + 1 } }, true)

/-- `SegmentIo::append` of the run. -/
def writeRun (c : Committer crc maxRecordLen) (frames : List (Frame crc maxRecordLen)) :
    WriteOutcome → Committer crc maxRecordLen × Bool
  | .written =>
    if c.active.poisoned then (c, false)
    else ({ c with active := { c.active with log := c.active.log.append frames } }, true)
  | .rolledBack =>
    if c.active.poisoned then (c, false)
    else ({ c with active := { c.active with log := c.active.log.syncAll } }, false)
  | .truncateFails => ({ c with active := { c.active with poisoned := true } }, false)
  | .rollbackSyncFails =>
    if c.active.poisoned then (c, false)
    else ({ c.lose with active := { c.active with poisoned := true } }, false)

/-- The results of a run written at `base`. -/
def runResults (segmentId : Nat) : Nat → List (Nat × Frame crc maxRecordLen) →
    List (Nat × Except AppendError Position)
  | _, [] => []
  | base, (slot, f) :: run =>
    (slot, .ok ⟨segmentId, base, f.seq⟩) :: runResults segmentId (base + f.bytes.length) run

/-- `flush_run`. A run that is not written leaves the numbers it used free. -/
def flushRun (c : Committer crc maxRecordLen) (g : Group crc maxRecordLen) (out : WriteOutcome) :
    Committer crc maxRecordLen :=
  match c.writeRun (g.run.map (·.2)) out with
  | (c', true) => { c' with
      nextSeq := g.run.getLast?.elim c.nextSeq (·.2.seq + 1)
      group := some { g with
        run := []
        results := g.results ++ runResults c.active.id c.active.size g.run } }
  | (c', false) => { c' with
      group := some { g with
        run := []
        seq := c.nextSeq
        failed := true
        results := g.results ++ g.run.map fun m => (m.1, .error .groupWrite) } }

/-- What `append_group` does next. -/
inductive Todo (crc : Bytes → UInt32) (maxRecordLen : Nat) where
  /-- An earlier failure fails this request too. -/
  | fail (slot : Nat)
  | refuse (slot : Nat) (err : WalError)
  | push (slot : Nat) (frame : Frame crc maxRecordLen)
  | flush
  | rotate (slot : Nat)
  | finish

/-- The head of the loop of `append_group`. A request that overflows the segment first has
the run written, then the segment rotated. -/
def todo (c : Committer crc maxRecordLen) (g : Group crc maxRecordLen) : Todo crc maxRecordLen :=
  match g.pending with
  | [] => if g.failed ∨ g.run.isEmpty then .finish else .flush
  | (slot, op) :: _ =>
    if g.failed then .fail slot
    else
      match encodeFrame crc maxRecordLen g.seq op with
      | .error e => .refuse slot e
      | .ok frame =>
        if (!c.active.log.items.isEmpty || !g.run.isEmpty) = true ∧
            c.maxSegmentSize <
              c.active.size + framesLen (g.run.map (·.2)) + frame.bytes.length then
          if g.run.isEmpty then .rotate slot else .flush
        else .push slot frame

def dropRequest (g : Group crc maxRecordLen) (slot : Nat) (err : AppendError) :
    Group crc maxRecordLen :=
  { g with pending := g.pending.tail, results := g.results ++ [(slot, .error err)] }

end Committer

/-! ## Steps -/

inductive CommitterAct where
  /-- A caller of `append` queues its request. -/
  | append (op : WalOp)
  /-- The combiner takes what is queued. -/
  | drain
  /-- `append_group` goes on with a request that needs no I/O. -/
  | groupNext
  | groupFlush (out : WriteOutcome)
  | groupRotate (out : RotateOutcome)
  /-- `append_group` returns and the slots are completed. -/
  | groupEnd
  /-- The combiner's own request is answered: the role goes to the next in the queue. -/
  | handOver
  | combinerPanic
  /-- The flush thread rotates. -/
  | rotate (out : RotateOutcome)
  /-- A call of `await_durable`, up to its first lock. -/
  | call (seq : Nat)
  /-- A turn of the loop of `await_durable` for the waiter at `i`. -/
  | wake (i : Nat)
  | timeOut (i : Nat)
  | capture (cloneFails : Bool)
  | fsyncStart
  | fsyncDone (succeeds : Bool)
  | publish
  | finish
  | leaderPanic
  | shutdown
deriving DecidableEq, Repr

namespace Committer

/-- `finish_batch_with_error`, and the leader's own call ends. -/
def leaderFails (c : Committer crc maxRecordLen) (l : Leader) : Committer crc maxRecordLen :=
  { c with
    leader := none
    poisoned := some .fsyncFailed
    answers := c.answers ++ [(l.seq, .io)] }

/-- `append_group` and the slots it fills. -/
def groupAct (c : Committer crc maxRecordLen) (g : Group crc maxRecordLen) :
    CommitterAct → Option (Committer crc maxRecordLen)
  | .groupNext =>
    match c.todo g with
    | .fail slot => some { c with group := some (dropRequest g slot .groupWrite) }
    | .refuse slot err => some { c with group := some (dropRequest g slot (.encode err)) }
    | .push slot frame =>
      if g.seq < u64Max then
        some { c with group := some { g with
          pending := g.pending.tail
          run := g.run ++ [(slot, frame)]
          seq := g.seq + 1 } }
      else none
    | _ => none
  | .groupFlush out =>
    match c.todo g with
    | .flush => some (c.flushRun g out)
    | _ => none
  | .groupRotate out =>
    match c.todo g with
    | .rotate slot =>
      match c.rotate out with
      | (c', true) => some c'
      | (c', false) =>
        some { c' with group := some { dropRequest g slot .rotate with failed := true } }
    | _ => none
  | .groupEnd =>
    match c.todo g with
    | .finish => some { c with group := none, done := c.done ++ g.results }
    | _ => none
  | _ => none

/-- `run_as_leader`. -/
def leaderAct (c : Committer crc maxRecordLen) (l : Leader) :
    CommitterAct → Option (Committer crc maxRecordLen)
  | .capture cloneFails =>
    match l.phase, c.group with
    | .elected, none =>
      if c.active.poisoned ∨ cloneFails then some (c.leaderFails l)
      else some { c with leader := some ⟨l.seq, .captured c.active.id (c.nextSeq - 1)⟩ }
    | _, _ => none
  | .fsyncStart =>
    match l.phase with
    | .captured segmentId batchMaxSeq => some { c with
        leader := some ⟨l.seq, .syncing segmentId batchMaxSeq c.active.log.items.length⟩ }
    | _ => none
  | .fsyncDone succeeds =>
    match l.phase with
    | .syncing segmentId batchMaxSeq present =>
      -- a segment that is no longer active was covered when it was sealed
      let here := decide (segmentId = c.active.id)
      if succeeds then some { c with
        leader := some ⟨l.seq, .synced batchMaxSeq⟩
        active := if here then { c.active with log := c.active.log.syncTo present }
          else c.active }
      else some ((if here then c.lose else c).leaderFails l)
    | _ => none
  | .publish =>
    match l.phase with
    | .synced batchMaxSeq => some { c with
        durableThrough := max c.durableThrough batchMaxSeq
        leader := some ⟨l.seq, .published⟩ }
    | _ => none
  | .finish =>
    match l.phase with
    | .published => some ({ c with leader := none }.answer l.seq .ok)
    | _ => none
  | .leaderPanic => some { c with
      leader := none
      poisoned := some (c.poisoned.getD .leaderPanicked) }
  | _ => none

/-- A waiter leaves with an answer. -/
def leave (c : Committer crc maxRecordLen) (i seq : Nat) (a : Answer) :
    Committer crc maxRecordLen :=
  { c with waiters := c.waiters.eraseIdx i, answers := c.answers ++ [(seq, a)] }

def pendingWaiters (c : Committer crc maxRecordLen) : Nat :=
  c.waiters.length + (if c.leader.isSome then 1 else 0)

def act (c : Committer crc maxRecordLen) : CommitterAct → Option (Committer crc maxRecordLen)
  | .append op =>
    if c.shuttingDown then none
    else some { c with
      queue := c.queue ++ [(c.nextSlot, op)]
      nextSlot := c.nextSlot + 1
      combiner := some (c.combiner.getD c.nextSlot) }
  | .drain =>
    match c.combiner, c.group with
    | some own, none =>
      if c.done.any (·.1 = own) then none
      else if c.queue.isEmpty then some { c with done := c.done ++ [(own, .error .emptyQueue)] }
      else some { c with
        queue := c.queue.drop appendCombineMaxOps
        group := some { pending := c.queue.take appendCombineMaxOps, seq := c.nextSeq } }
    | _, _ => none
  | .handOver =>
    match c.combiner, c.group with
    | some own, none =>
      if c.done.any (·.1 = own) then some { c with combiner := c.queue.head?.map (·.1) }
      else none
    | _, _ => none
  | .combinerPanic =>
    -- `CombinerGuard`: nobody stays blocked, and the committer is poisoned
    match c.combiner with
    | some _ => some { c with
        combiner := none
        group := none
        queue := []
        done := c.done ++ (((c.group.elim [] fun g =>
            g.results.map (·.1) ++ g.run.map (·.1) ++ g.pending.map (·.1)) ++
          c.queue.map (·.1)).map fun slot => (slot, .error .combinerPanicked))
        poisoned := some .leaderPanicked }
    | none => none
  | .rotate out =>
    match c.group with
    | none => some (c.rotate out).1
    | some _ => none
  | .call seq =>
    if seq ≤ c.durableThrough then some (c.answer seq .ok)
    else if c.shuttingDown then some (c.answer seq .shuttingDown)
    else if c.maxPendingWaiters ≤ c.pendingWaiters then
      some (c.answer seq (.capacityExceeded (c.pendingWaiters + 1) c.maxPendingWaiters))
    else some { c with waiters := c.waiters ++ [seq] }
  | .wake i =>
    match c.waiters[i]? with
    | none => none
    | some seq =>
      if seq ≤ c.durableThrough then some (c.leave i seq .ok)
      else
        match c.poisoned with
        | some reason => some (c.leave i seq (.poisoned reason))
        | none =>
          if c.shuttingDown then some (c.leave i seq .shuttingDown)
          else if c.leader.isSome then none
          else some { c with
            waiters := c.waiters.eraseIdx i
            leader := some ⟨seq, .elected⟩ }
  | .timeOut i =>
    match c.waiters[i]? with
    | none => none
    | some seq =>
      if seq ≤ c.durableThrough then some (c.leave i seq .ok)
      else
        match c.poisoned with
        | some reason => some (c.leave i seq (.poisoned reason))
        | none => some (c.leave i seq .timeout)
  | .shutdown => some { c with shuttingDown := true }
  | a@(.groupNext) | a@(.groupFlush _) | a@(.groupRotate _) | a@(.groupEnd) =>
    match c.group with
    | some g => c.groupAct g a
    | none => none
  | a@(.capture _) | a@(.fsyncStart) | a@(.fsyncDone _) | a@(.publish) | a@(.finish)
  | a@(.leaderPanic) =>
    match c.leader with
    | some l => c.leaderAct l a
    | none => none

end Committer

end RubixDb.GroupCommit
