import RubixDb.Relational.Cascade
import RubixDb.Relational.Commit

/-!
# A transaction's calls

What a caller can do with an open `Transaction` (`src/relational/txn.rs`), call by call.
Each call finds its own database: the catalog and the rows may change in between. A failed
call leaves what it has buffered so far.
-/

namespace RubixDb

open Lib

inductive TxnCall where
  | getRow (tableId : Nat) (pkValues : List RelationalValue)
  | overlayFor (tableId : Nat)
  | putRow (tableId : Nat) (row : Row)
  | deleteRow (tableId : Nat) (pkValues : List RelationalValue)
  | applyRowUpdates (tableId : Nat) (updates : List (Row × Row))
  | enforceForeignKeys (tableId : Nat) (changes : List RowChange)

inductive TxnResult where
  | row (result : Except TxnError (Option Row))
  | overlay (result : Option (List OverlayEntry))
  | written (result : Except TxnError Unit)
  | cascaded (result : Except TxnError (List CascadedWrite))
  /-- A savepoint was taken, released or rolled back to. -/
  | done

/-- The result of a computation and the transaction after it. -/
def runTxn {α : Type} (x : TxnM α) (tx : Txn) : Except TxnError α × Txn :=
  match x tx with
  | .ok a tx => (.ok a, tx)
  | .error e tx => (.error e, tx)

def TxnCall.run (db : Db) (tx : Txn) : TxnCall → TxnResult × Txn
  | .getRow tableId pkValues => (.row (tx.getRow db tableId pkValues), tx)
  | .overlayFor tableId => ((.overlay (tx.overlayFor tableId).1), (tx.overlayFor tableId).2)
  | .putRow tableId row =>
    let (result, tx) := runTxn (RubixDb.putRow db tableId row) tx
    (.written result, tx)
  | .deleteRow tableId pkValues =>
    let (result, tx) := runTxn (RubixDb.deleteRow db tableId pkValues) tx
    (.written result, tx)
  | .applyRowUpdates tableId updates =>
    let (result, tx) := runTxn (RubixDb.applyRowUpdates db tableId updates) tx
    (.written result, tx)
  | .enforceForeignKeys tableId changes =>
    let (result, tx) := runTxn (RubixDb.enforceForeignKeys db tableId changes) tx
    (.cascaded result, tx)

/-- `after` is reached from `before` by calls that may fail, with savepoints among them
that are properly nested and closed again. -/
inductive Ran : Txn → Txn → Prop where
  | refl (tx : Txn) : Ran tx tx
  | call {a b : Txn} (db : Db) (call : TxnCall) : Ran a b → Ran a (call.run db b).2
  | released {a b c : Txn} : Ran a b → Ran b.savepoint.2 c →
      Ran a (c.releaseSavepoint b.savepoint.1)
  | rolledBack {a b c : Txn} : Ran a b → Ran b.savepoint.2 c → Ran a (c.rollbackTo b.savepoint.1)

/-- What `commit` writes; nothing at all if nothing is buffered. -/
def Txn.commitOps (tx : Txn) (limits : TxnLimits) (es : RelStore) (snapshot : Nat)
    (fks : List ForeignKeyRow) : Except TxnError (Option RelOps) :=
  if tx.writes.entries.isEmpty then .ok none
  else (validateAndBuildOps limits es snapshot fks tx).map some

/-- A call of the rest of a transaction; savepoints are closed innermost first. -/
inductive LaterCall where
  | call (call : TxnCall)
  | savepoint
  | release
  | rollback

/-- The open savepoints go along, the innermost first. -/
def LaterCall.run (db : Db) (tx : Txn) (opened : List Savepoint) :
    LaterCall → TxnResult × Txn × List Savepoint
  | .call c => ((c.run db tx).1, (c.run db tx).2, opened)
  | .savepoint => (.done, tx.savepoint.2, tx.savepoint.1 :: opened)
  | .release =>
    match opened with
    | [] => (.done, tx, [])
    | sp :: rest => (.done, tx.releaseSavepoint sp, rest)
  | .rollback =>
    match opened with
    | [] => (.done, tx, [])
    | sp :: rest => (.done, tx.rollbackTo sp, rest)

end RubixDb
