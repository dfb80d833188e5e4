import RubixDb.Catalog.Constraints
import RubixDb.Relational.Key
import RubixDb.Relational.TableStore

/-!
# A transaction's view and its buffered writes

The parts of `src/relational/txn.rs` that one transaction runs by itself: reading a row
through its own writes, and buffering a write. A call that fails keeps what it has done to
the transaction so far, as the source's `&mut self` methods do, so the calls are in
`EStateM`.

The committed rows a transaction reads are the database's, by table and encoded primary
key; a row is kept there with the key values that its key decodes to, and a reader that
looks a key up gets the values it asked with.
-/

namespace RubixDb

open Lib

/-- The rows of one table by encoded primary key. -/
abbrev TableRows := AList fun _ : Bytes => Row

/-- The committed rows of every table, at one point. -/
abbrev View := Nat → TableRows

inductive RowOp where
  | put (row : Row)
  | delete
deriving DecidableEq

/-- The latest operation for each key of a table, with the key's values. -/
abbrev TableWrites := AList fun _ : Bytes => List RelationalValue × RowOp

abbrev WriteSet := AList fun _ : Nat => TableWrites

/-- What undoes one buffered write. -/
structure JournalEntry where
  tableId : Nat
  encodedPk : Bytes
  previous : Option (List RelationalValue × RowOp)

/-- One buffered write as the transaction's own scans see it; no row is a deletion. -/
structure OverlayEntry where
  encodedPk : Bytes
  pkValues : List RelationalValue
  row : Option Row
deriving DecidableEq

structure TxnLimits where
  maxWriteSetOps : Nat
  maxWriteSetBytes : Nat

structure Txn where
  writes : WriteSet
  opCount : Nat
  byteCount : Nat
  /-- The `schema_version` each table was first written under. -/
  tableVersions : AList fun _ : Nat => Nat
  /-- Present while a savepoint is open. -/
  journal : Option (List JournalEntry)
  /-- Goes up with every buffered write. -/
  writeVersion : Nat
  /-- The overlays built so far, each with the version it was built at. -/
  overlayCache : AList fun _ : Nat => Nat × List OverlayEntry

/-- Why a commit is refused although nothing about it is wrong by itself. -/
inductive Conflict where
  | tableAltered
  | rowModified
  | uniqueWithin
  | uniqueCommitted
deriving DecidableEq

inductive TxnError where
  | relational (error : RelationalError)
  | key (error : KeyError)
  | tableNotFound (tableId : Nat)
  | keyArity (tableId expected got : Nat)
  /-- `put_rows` without a row. -/
  | emptyBatch
  | writeSetOps
  | writeSetBytes
  | childViolation (fk : String)
  | parentViolation (fk : String)
  | cascadeDepth
  | duplicateKey
  | columnGone (ordinal : Nat)
  | indexColumnOutside (indexId ordinal : Nat)
  /-- `Conflict`: retry the transaction. -/
  | conflict (detail : Conflict)
  /-- An index out of bounds, which the source panics on. -/
  | panicked
deriving DecidableEq

/-- What a statement of a transaction reads besides the transaction: the catalog, the
committed rows at its snapshot and now, and the limits. -/
structure Db where
  shape : Nat → Option TableShape
  indexes : Nat → List IndexRow
  foreignKeys : List ForeignKeyRow
  snapshot : View
  latest : View
  limits : TxnLimits

abbrev TxnM := EStateM TxnError Txn

/-- A failure of a callee that does not touch the transaction. -/
def liftTxn {ε α : Type} (wrap : ε → TxnError) : Except ε α → TxnM α
  | .ok a => pure a
  | .error e => throw (wrap e)

/-- `BEGIN`. -/
def Txn.begin : Txn := ⟨∅, 0, 0, ∅, none, 0, ∅⟩

def Db.resolveTable (db : Db) (tableId : Nat) : Except TxnError TableShape :=
  match db.shape tableId with
  | some shape => .ok shape
  | none => .error (.tableNotFound tableId)

/-! ## Reads -/

/-- A row with the columns `ordinals` set to `values` pairwise. -/
def withColumns (row : Row) : List Nat → List (Option RelationalValue) → Row
  | o :: os, v :: vs => withColumns (row.set o v) os vs
  | _, _ => row

/-- What the transaction buffered for a key. -/
def Txn.ownOp (tx : Txn) (tableId : Nat) (encodedPk : Bytes) : Option RowOp := do
  let tableWrites ← tx.writes.lookup tableId
  let (_, op) ← tableWrites.lookup encodedPk
  some op

/-- The committed row at a key, with the key values it was asked for. -/
def fetchRowByEncodedPk (view : View) (table : TableRow) (pkValues : List RelationalValue)
    (encodedPk : Bytes) : Option Row :=
  ((view table.tableId).lookup encodedPk).map fun row =>
    withColumns row table.pkOrdinals (pkValues.map some)

def Txn.getRow (db : Db) (tx : Txn) (tableId : Nat) (pkValues : List RelationalValue) :
    Except TxnError (Option Row) := do
  let shape ← db.resolveTable tableId
  if pkValues.length ≠ shape.table.pkOrdinals.length then
    .error (.keyArity tableId shape.table.pkOrdinals.length pkValues.length)
  else
    match encodeCompositeKey pkValues with
    | .error e => .error (.key e)
    | .ok encodedPk =>
      match tx.ownOp tableId encodedPk with
      | some (.put row) => .ok (some row)
      | some .delete => .ok none
      | none => .ok (fetchRowByEncodedPk db.snapshot shape.table pkValues encodedPk)

/-- The writes of one table in key order. -/
def overlayOf (tableWrites : TableWrites) : List OverlayEntry :=
  (tableWrites.entries.map fun e =>
    { encodedPk := e.1
      pkValues := e.2.1
      row := match e.2.2 with
        | .put row => some row
        | .delete => none }).mergeSort fun a b => a.encodedPk ≤ b.encodedPk

/-- A table's overlay, from the cache if nothing was written since it was built. -/
def Txn.overlayFor (tx : Txn) (tableId : Nat) : Option (List OverlayEntry) × Txn :=
  match tx.writes.lookup tableId with
  | none => (none, tx)
  | some tableWrites =>
    if tableWrites.entries.isEmpty then (none, tx)
    else
      match (tx.overlayCache.lookup tableId).filter fun c => c.1 = tx.writeVersion with
      | some (_, overlay) => (some overlay, tx)
      | none =>
        let overlay := overlayOf tableWrites
        (some overlay, { tx with
          overlayCache := tx.overlayCache.insert tableId (tx.writeVersion, overlay) })

/-! ## Buffered writes -/

def approxFieldBytes : Option RelationalValue → Nat
  | none => 1
  | some (.text s) => (utf8Bytes s).length + 8
  | some (.blob b) => b.length + 8
  | some _ => 16

def approxRowBytes (values : Row) : Nat := (values.map approxFieldBytes).sum

/-- The map of a table's writes is made before the limits are checked, and stays. -/
def recordOp (db : Db) (tableId : Nat) (encodedPk : Bytes) (pkValues : List RelationalValue)
    (op : RowOp) (approxBytes : Nat) : TxnM Unit := do
  let tx ← get
  let tableWrites := (tx.writes.lookup tableId).getD ∅
  set { tx with writes := tx.writes.insert tableId tableWrites }
  let previous := tableWrites.lookup encodedPk
  if previous.isNone ∧ db.limits.maxWriteSetOps ≤ tx.opCount then throw .writeSetOps
  else if db.limits.maxWriteSetBytes < tx.byteCount + approxBytes then throw .writeSetBytes
  else
    set { tx with
      writes := tx.writes.insert tableId (tableWrites.insert encodedPk (pkValues, op))
      journal :=
        tx.journal.map fun entries => entries ++ [JournalEntry.mk tableId encodedPk previous]
      opCount := if previous.isNone then tx.opCount + 1 else tx.opCount
      byteCount := tx.byteCount + approxBytes
      writeVersion := tx.writeVersion + 1 }

def putRow (db : Db) (tableId : Nat) (values : Row) : TxnM Unit := do
  let shape ← liftTxn id (db.resolveTable tableId)
  liftTxn .relational (validateRowShape shape.table shape.columns values)
  let pkValues ← liftTxn .relational (extractPkValues shape.table values)
  let encodedPk ← liftTxn .key (encodeCompositeKey pkValues)
  -- `entry(..).or_insert(..)`: the first version stays
  modify fun tx =>
    if (tx.tableVersions.lookup tableId).isSome then tx
    else { tx with tableVersions := tx.tableVersions.insert tableId shape.table.schemaVersion }
  recordOp db tableId encodedPk pkValues (.put values) (approxRowBytes values)

def deleteRow (db : Db) (tableId : Nat) (pkValues : List RelationalValue) : TxnM Unit := do
  let shape ← liftTxn id (db.resolveTable tableId)
  if pkValues.length ≠ shape.table.pkOrdinals.length then
    throw (.keyArity tableId shape.table.pkOrdinals.length pkValues.length)
  let encodedPk ← liftTxn .key (encodeCompositeKey pkValues)
  recordOp db tableId encodedPk pkValues .delete 0

/-! ## Savepoints -/

structure Savepoint where
  journalLen : Nat
  opCount : Nat
  byteCount : Nat
  ownsJournal : Bool
deriving DecidableEq

def Txn.savepoint (tx : Txn) : Savepoint × Txn :=
  let journal := tx.journal.getD []
  (⟨journal.length, tx.opCount, tx.byteCount, tx.journal.isNone⟩,
    { tx with journal := some journal })

def Txn.releaseSavepoint (tx : Txn) (sp : Savepoint) : Txn :=
  if sp.ownsJournal then { tx with journal := none } else tx

/-- Puts one key of the write-set back as it was. -/
def restoreEntry (writes : WriteSet) (entry : JournalEntry) : WriteSet :=
  let tableWrites := (writes.lookup entry.tableId).getD ∅
  writes.insert entry.tableId
    (match entry.previous with
      | some previous => tableWrites.insert entry.encodedPk previous
      | none => tableWrites.erase entry.encodedPk)

/-- The write-set without the tables nothing is buffered for. -/
def retainNonEmpty (writes : WriteSet) : WriteSet where
  entries := writes.entries.filter fun e => !e.2.entries.isEmpty
  nodupKeys := List.NodupKeys.sublist List.filter_sublist writes.nodupKeys

/-- The journal is undone from its end; the recorded versions stay. -/
def Txn.rollbackTo (tx : Txn) (sp : Savepoint) : Txn :=
  match tx.journal with
  | none => tx
  | some journal =>
    { tx with
      writes := retainNonEmpty ((journal.drop sp.journalLen).reverse.foldl restoreEntry tx.writes)
      opCount := sp.opCount
      byteCount := sp.byteCount
      writeVersion := tx.writeVersion + 1
      journal := if sp.ownsJournal then none else some (journal.take sp.journalLen) }

end RubixDb
