import RubixDb.Relational.Commit
import RubixDb.Sql.Check

/-!
# A session's transaction, step by step

One transaction as other threads see it (`sql/src/exec/write.rs` for the statements,
`Transaction::commit` for the end): between any two of these steps another thread may run.

A statement evaluates the rows it is about to write against the `CHECK` constraints of its
table, buffers them one `put_row` at a time, buffers what its referential actions do to
other tables, and then evaluates the rows written there. Which rows a statement writes is
left open. On failure everything it buffered is undone.

A commit reads the generation of the foreign keys and their list, locks the tables it needs
one by one, starts over if the generation has moved, reads the list again, validates,
submits its batch, and applies it once the log is durable.
-/

namespace RubixDb

open Lib

inductive SessionPhase where
  /-- Between statements. -/
  | active
  /-- `check_rows` of a statement about to write `rows`. -/
  | checking (tableId : Nat) (rows : List Row) (reading : Reading ConstraintRow)
  /-- `todo` is still to be put; `checks` is the list the rows have passed, and `cascaded`
  what referential actions have written. -/
  | writing (tableId : Nat) (checks : List ConstraintRow) (todo : List Row)
      (cascaded : List (Nat × Row))
  /-- `check_cascaded`, with the tables it has still to do. -/
  | rechecking (tables : List Nat) (cascaded : List (Nat × Row)) (reading : Reading ConstraintRow)
  /-- At the top of the commit loop. -/
  | retrying (attempts : Nat)
  | planning (attempts generation : Nat) (reading : Reading ForeignKeyRow)
  /-- `planned` is the list the lock plan was made from. -/
  | locking (attempts generation : Nat) (planned : List ForeignKeyRow)
    (held todo : List (Nat × Bool))
  | validating (planned : List ForeignKeyRow) (held : List (Nat × Bool))
      (reading : Reading ForeignKeyRow)
  /-- `listed` is the list to validate against. -/
  | listed (planned listed : List ForeignKeyRow) (held : List (Nat × Bool))
  | logged (held : List (Nat × Bool))
  | applied (held : List (Nat × Bool))
  | finished

structure Session where
  snapshot : Nat
  tx : Txn
  /-- The savepoint of the statement that is running. -/
  savepoint : Option Savepoint
  phase : SessionPhase

inductive SessionAct where
  | execute (tableId : Nat) (rows : List Row)
  /-- The next step of the list that is being read. -/
  | read
  | put
  | delete (tableId : Nat) (pkValues : List RelationalValue)
  | cascade (tableId : Nat) (row : Row)
  | endWrites
  | fail
  /-- A call from outside any statement. -/
  | putRow (tableId : Nat) (row : Row)
  | deleteRow (tableId : Nat) (pkValues : List RelationalValue)
  | commit
  | plan
  | lock
  | recheck
  | validate
  | apply
  | release

/-- What does not change while the system runs. -/
structure Config where
  limits : TxnLimits
  eval : CheckEval

/-- The state of the transaction after a call, and whether the call succeeded. -/
def runCall (call : TxnM Unit) (tx : Txn) : Bool × Txn :=
  match call tx with
  | .ok _ tx => (true, tx)
  | .error _ tx => (false, tx)

namespace Session

def begin (durable : Nat) : Session := ⟨durable, .begin, none, .active⟩

/-- The statement failed: nothing of it stays buffered. -/
def rollback (s : Session) (tx : Txn) : Session :=
  { s with
    tx := (s.savepoint.map tx.rollbackTo).getD tx
    savepoint := none
    phase := .active }

def endStatement (s : Session) : Session :=
  { s with
    tx := (s.savepoint.map s.tx.releaseSavepoint).getD s.tx
    savepoint := none
    phase := .active }

/-- A call inside a statement, which fails with it. -/
def within (s : Session) (call : TxnM Unit) (phase : SessionPhase) : Session :=
  match runCall call s.tx with
  | (true, tx) => { s with tx := tx, phase := phase }
  | (false, tx) => s.rollback tx

/-- The tables of `cascaded`, each once, in order. -/
def cascadedTables (cascaded : List (Nat × Row)) : List Nat :=
  (cascaded.map (·.1)).dedup.mergeSort (· ≤ ·)

/-- What `check_cascaded` does with the list once it has it. -/
def recheckTable (cfg : Config) (s : Session) (tableId : Nat) (tables : List Nat)
    (cascaded : List (Nat × Row)) (list : List ConstraintRow) : Session :=
  if rowsSatisfy cfg.eval (checksFor list tableId)
      ((cascaded.filter fun c => c.1 = tableId).map (·.2)) then
    { s with phase := .rechecking tables cascaded .start }
  else s.rollback s.tx

def maxAttempts : Nat := 8

/-- The steps outside a commit. -/
def stepStatement (cfg : Config) (seen : RelSeen) (s : Session) :
    SessionAct → Option (Caches × Session)
  | a =>
    let db := dbOf cfg.limits seen.store s.snapshot []
    match s.phase, a with
    | .active, .execute tableId rows =>
      let (savepoint, tx) := s.tx.savepoint
      some (seen.shared, { s with
        tx := tx, savepoint := some savepoint, phase := .checking tableId rows .start })
    | .active, .putRow tableId row =>
      some (seen.shared, { s with tx := (runCall (RubixDb.putRow db tableId row) s.tx).2 })
    | .active, .deleteRow tableId pkValues =>
      some (seen.shared, { s with tx := (runCall (RubixDb.deleteRow db tableId pkValues) s.tx).2 })
    | .checking tableId rows reading, .read =>
      match reading.next seen.shared.checks
          (checkConstraintsAt seen.store (topSeq seen.store)) with
      | (checks, .inl reading) =>
        some ({ seen.shared with checks := checks },
          { s with phase := .checking tableId rows reading })
      | (checks, .inr list) =>
        some ({ seen.shared with checks := checks },
          if rowsSatisfy cfg.eval (checksFor list tableId) rows then
            { s with phase := .writing tableId (checksFor list tableId) rows [] }
          else s.rollback s.tx)
    | .writing tableId checks (row :: todo) cascaded, .put =>
      some (seen.shared, s.within (RubixDb.putRow db tableId row)
        (.writing tableId checks todo cascaded))
    | .writing tableId checks todo cascaded, .delete t pkValues =>
      some (seen.shared, s.within (RubixDb.deleteRow db t pkValues)
        (.writing tableId checks todo cascaded))
    | .writing tableId checks todo cascaded, .cascade t row =>
      some (seen.shared, s.within (RubixDb.putRow db t row)
        (.writing tableId checks todo (cascaded ++ [(t, row)])))
    | .writing _ _ [] cascaded, .endWrites =>
      some (seen.shared, { s with phase := .rechecking (cascadedTables cascaded) cascaded .start })
    | .rechecking (tableId :: tables) cascaded reading, .read =>
      match reading.next seen.shared.checks
          (checkConstraintsAt seen.store (topSeq seen.store)) with
      | (checks, .inl reading) =>
        some ({ seen.shared with checks := checks },
          { s with phase := .rechecking (tableId :: tables) cascaded reading })
      | (checks, .inr list) =>
        some ({ seen.shared with checks := checks },
          recheckTable cfg s tableId tables cascaded list)
    | .rechecking [] _ _, .endWrites => some (seen.shared, s.endStatement)
    | .checking _ _ _, .fail => some (seen.shared, s.rollback s.tx)
    | .writing _ _ _ _, .fail => some (seen.shared, s.rollback s.tx)
    | .rechecking _ _ _, .fail => some (seen.shared, s.rollback s.tx)
    | _, _ => none

/-- The steps of a commit. -/
def stepCommit (cfg : Config) (seen : RelSeen) (s : Session) :
    SessionAct → Option (RelEffect × Caches × Session)
  | a =>
    match s.phase, a with
    | .active, .commit =>
      some (.quiet, seen.shared,
        { s with phase := if s.tx.writes.keys.isEmpty then .finished else .retrying 0 })
    | .retrying attempts, .plan =>
      some (.quiet, seen.shared,
        { s with phase := .planning attempts seen.shared.foreignKeys.generation .start })
    | .planning attempts generation reading, .read =>
      match reading.next seen.shared.foreignKeys
          (foreignKeysAt seen.store (topSeq seen.store)) with
      | (fks, .inl reading) =>
        some (.quiet, { seen.shared with foreignKeys := fks },
          { s with phase := .planning attempts generation reading })
      | (fks, .inr list) =>
        some (.quiet, { seen.shared with foreignKeys := fks },
          { s with phase := .locking attempts generation list [] (commitLockPlan s.tx list) })
    | .locking attempts generation planned held ((t, exclusive) :: todo), .lock =>
      some (.acquire (.epoch t) exclusive, seen.shared,
        { s with phase := .locking attempts generation planned ((t, exclusive) :: held) todo })
    | .locking attempts generation planned held [], .recheck =>
      if seen.shared.foreignKeys.generation = generation then
        some (.quiet, seen.shared, { s with phase := .validating planned held .start })
      else
        some (.release, seen.shared,
          { s with
            phase := if maxAttempts ≤ attempts + 1 then .finished else .retrying (attempts + 1) })
    | .validating planned held reading, .read =>
      match reading.next seen.shared.foreignKeys
          (foreignKeysAt seen.store (topSeq seen.store)) with
      | (fks, .inl reading) =>
        some (.quiet, { seen.shared with foreignKeys := fks },
          { s with phase := .validating planned held reading })
      | (fks, .inr list) =>
        some (.quiet, { seen.shared with foreignKeys := fks },
          { s with phase := .listed planned list held })
    | .listed _ list held, .validate =>
      match validateAndBuildOps cfg.limits seen.store s.snapshot list s.tx with
      | .ok ops => some (.submit ops, seen.shared, { s with phase := .logged held })
      | .error _ => some (.release, seen.shared, { s with phase := .finished })
    | .logged held, .apply => some (.apply, seen.shared, { s with phase := .applied held })
    | .applied _, .release => some (.release, seen.shared, { s with phase := .finished })
    -- a read that fails ends the commit
    | .planning _ _ _, .fail => some (.quiet, seen.shared, { s with phase := .finished })
    | .validating _ _ _, .fail => some (.release, seen.shared, { s with phase := .finished })
    | .listed _ _ _, .fail => some (.release, seen.shared, { s with phase := .finished })
    | _, _ => none

def step (cfg : Config) (seen : RelSeen) (s : Session) (a : SessionAct) :
    Option (RelEffect × Caches × Session) :=
  match stepCommit cfg seen s a with
  | some r => some r
  | none => (stepStatement cfg seen s a).map fun r => (.quiet, r.1, r.2)

end Session

end RubixDb
