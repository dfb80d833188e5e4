import RubixDb.Wal.GroupCommit

/-!
# The batch coordinator

`src/execution/batch_coordinator.rs` with the slots of `src/execution/common.rs`. Callers
put requests into a bounded queue; one thread drains it batch by batch, appends the records
one after the other, waits once until the last of them is durable, and completes the slot of
each request. Two kinds of guards stand in for it if it panics: one for each request of the
batch it is at, and one for the thread, which is to see to the queue.

The committer under it is seen through what it returns: `append` gives a position above all
earlier ones or fails, `await_durable` succeeds or fails, and either may panic. Statistics
are left out.
-/

namespace RubixDb.Coordinator

open GroupCommit (Position)

inductive PoolState where
  | running
  | draining
  | stopped
  | failed
deriving DecidableEq, Repr

inductive RequestError where
  /-- The request's own append failed. -/
  | append
  /-- An earlier request of the batch failed to append. -/
  | notAttempted
  /-- `await_durable` failed for the batch. -/
  | batch
  /-- `CompletionGuard`: the thread panicked with the request in its batch. -/
  | processorPanicked
  /-- `CoordinatorAliveGuard`: the thread panicked with the request in the queue. -/
  | coordinatorTerminated
deriving DecidableEq, Repr

abbrev Outcome := Except RequestError Position

structure BatchCoordinatorConfig where
  queueCapacity : Nat
  maxQueuedBytes : Nat
  maxDrainPerBatch : Nat
deriving DecidableEq, Repr

def memberBodyLen : GroupMember → Nat
  | .put key value => 4 + key.length + 4 + value.length
  | .delete key => 4 + key.length

def estimateFrameLen (op : WalOp) : Nat :=
  8 + 9 + match op with
    | .put key value => 4 + key.length + 4 + value.length
    | .delete key => 4 + key.length
    | .checkpointMarker _ => 8
    | .group members => 4 + (members.map fun m => 1 + memberBodyLen m).sum

structure QueueEntry where
  requestId : Nat
  op : WalOp
  approxBytes : Nat
deriving DecidableEq, Repr

/-- Where the coordinator thread is. -/
inductive Phase where
  /-- At the head of `coordinator_loop`. -/
  | idle
  /-- `process_batch`, appending: what is left, and what was appended where. -/
  | appending (rest : List QueueEntry) (appended : List (QueueEntry × Position))
  /-- An append has failed: the requests behind it are refused. -/
  | refusing (rest : List QueueEntry) (appended : List (QueueEntry × Position))
  | awaiting (appended : List (QueueEntry × Position))
  /-- `await_durable` has returned: the requests still to be completed. -/
  | completing (succeeded : Bool) (rest : List (QueueEntry × Position))
  /-- The loop has ended. -/
  | exiting
  /-- A panic is unwinding; the guards of these requests have yet to be dropped. -/
  | unwinding (armed : List QueueEntry)
  | terminated
deriving DecidableEq

/-- The requests whose `CompletionGuard` is armed. -/
def Phase.armed : Phase → List QueueEntry
  | .appending rest appended | .refusing rest appended => appended.map (·.1) ++ rest
  | .awaiting appended => appended.map (·.1)
  | .completing _ rest => rest.map (·.1)
  | .unwinding armed => armed
  | .idle | .exiting | .terminated => []

/-- The pool. The last fields record what has happened. -/
structure Pool where
  config : BatchCoordinatorConfig
  entries : List QueueEntry := []
  queuedBytes : Nat := 0
  poolState : PoolState := .running
  /-- `next_request_id` is one above. -/
  lastRequestId : Nat := 0
  phase : Phase := .idle
  /-- The slots that hold a result. -/
  held : List (Nat × Outcome) := []
  /-- The results that `Completion::wait` has taken out of their slots. -/
  taken : List (Nat × Outcome) := []
  submitted : List QueueEntry := []
  appends : List (QueueEntry × Position) := []
  /-- The last number the committer has given out. -/
  lastSeq : Nat := 0
  /-- The numbers for which `await_durable` has succeeded. -/
  durable : List Nat := []

inductive PoolAct where
  | submit (op : WalOp)
  | shutdown
  /-- A caller takes the result at `i` out of its slot. -/
  | wait (i : Nat)
  | drain
  | exit
  | append (position : Option Position)
  | refuse
  | appendsDone
  | awaitDone (succeeds : Bool)
  | completeNext
  | panic
  | dropGuard
  | dropAlive
deriving DecidableEq

namespace Pool

/-- `CompletionSlot::complete`: a slot that holds a result keeps it. -/
def complete (p : Pool) (requestId : Nat) (outcome : Outcome) : Pool :=
  if p.held.any (·.1 = requestId) then p
  else { p with held := p.held ++ [(requestId, outcome)] }

/-- The queue part of `CoordinatorAliveGuard::drop`, in the state `Failed`. -/
def failQueued (p : Pool) : List QueueEntry → Pool
  | [] => p
  | e :: es => (p.complete e.requestId (.error .coordinatorTerminated)).failQueued es

def hasCapacity (p : Pool) (approxBytes : Nat) : Bool :=
  p.entries.length < p.config.queueCapacity ∧
    p.queuedBytes + approxBytes ≤ p.config.maxQueuedBytes

def drainCount (p : Pool) : Nat := min p.entries.length (max p.config.maxDrainPerBatch 1)

def bytesOf (entries : List QueueEntry) : Nat := (entries.map (·.approxBytes)).sum

/-- `CoordinatorAliveGuard::drop`: after a requested shutdown the queue is taken to be
empty. -/
def aliveDrop (p : Pool) : Pool :=
  match p.poolState with
  | .draining => { p with poolState := .stopped, phase := .terminated }
  | .stopped => { p with phase := .terminated }
  | .running | .failed =>
    { p.failQueued p.entries with
      entries := []
      queuedBytes := p.queuedBytes - bytesOf p.entries
      poolState := .failed
      phase := .terminated }

/-- The coordinator thread. -/
def threadAct (p : Pool) : PoolAct → Option Pool
  | .drain =>
    match p.phase with
    | .idle =>
      if p.entries.isEmpty then none
      else some { p with
        entries := p.entries.drop p.drainCount
        queuedBytes := p.queuedBytes - bytesOf (p.entries.take p.drainCount)
        phase := .appending (p.entries.take p.drainCount) [] }
    | _ => none
  | .exit =>
    match p.phase with
    | .idle =>
      if p.entries.isEmpty ∧ p.poolState ≠ .running then some { p with phase := .exiting }
      else none
    | _ => none
  | .append (some position) =>
    match p.phase with
    | .appending (e :: rest) appended =>
      if p.lastSeq < position.seq then
        some { p with
          phase := .appending rest (appended ++ [(e, position)])
          appends := p.appends ++ [(e, position)]
          lastSeq := position.seq }
      else none
    | _ => none
  | .append none =>
    match p.phase with
    | .appending (e :: rest) appended =>
      some { p.complete e.requestId (.error .append) with phase := .refusing rest appended }
    | _ => none
  | .refuse =>
    match p.phase with
    | .refusing (e :: rest) appended =>
      some { p.complete e.requestId (.error .notAttempted) with
        phase := .refusing rest appended }
    | _ => none
  | .appendsDone =>
    match p.phase with
    | .appending [] appended | .refusing [] appended =>
      -- nothing to wait for if the first append failed
      some { p with phase := if appended.isEmpty then .idle else .awaiting appended }
    | _ => none
  | .awaitDone succeeds =>
    match p.phase with
    | .awaiting appended =>
      -- `max_seq` is that of the last append
      some { p with
        phase := .completing succeeds appended
        durable := if succeeds then p.durable ++ (appended.getLast?.map (·.2.seq)).toList
          else p.durable }
    | _ => none
  | .completeNext =>
    match p.phase with
    | .completing succeeded ((e, position) :: rest) =>
      some { p.complete e.requestId (if succeeded then .ok position else .error .batch) with
        phase := .completing succeeded rest }
    | .completing _ [] => some { p with phase := .idle }
    | _ => none
  | .panic =>
    match p.phase with
    | .unwinding _ | .terminated => none
    | phase => some { p with phase := .unwinding phase.armed }
  | .dropGuard =>
    match p.phase with
    | .unwinding (e :: armed) =>
      some { p.complete e.requestId (.error .processorPanicked) with phase := .unwinding armed }
    | _ => none
  | .dropAlive =>
    match p.phase with
    | .unwinding [] | .exiting => some p.aliveDrop
    | _ => none
  | .submit _ | .shutdown | .wait _ => none

def act (p : Pool) : PoolAct → Option Pool
  | .submit op =>
    let approxBytes := estimateFrameLen op
    let e : QueueEntry := ⟨p.lastRequestId + 1, op, approxBytes⟩
    if p.poolState = .running ∧ p.hasCapacity approxBytes then some { p with
      entries := p.entries ++ [e]
      queuedBytes := p.queuedBytes + approxBytes
      lastRequestId := p.lastRequestId + 1
      submitted := p.submitted ++ [e] }
    else none
  | .shutdown =>
    match p.poolState with
    | .running => some { p with poolState := .draining }
    | _ => none
  | .wait i =>
    match p.held[i]? with
    | some result => some { p with
        held := p.held.eraseIdx i
        taken := p.taken ++ [result] }
    | none => none
  | a => p.threadAct a

end Pool

end RubixDb.Coordinator
