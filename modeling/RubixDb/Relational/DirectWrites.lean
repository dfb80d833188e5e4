import RubixDb.Relational.Commit

/-!
# Direct table writes

`TableStore::put_row`, `put_rows` and `delete_row` (`src/relational/table_store.rs`), as
the program of a process that shares the epoch lock of its table with other writers. Each
row's old version is read in a step of its own, and the batch is written after the last
read: between a read and the write other processes may write the same row.

No schema change runs meanwhile, as that takes the other side of the lock, so the catalog
is a parameter.
-/

namespace RubixDb

open Lib

/-- The tables and indexes, with what the catalog sees to: a table is found under its id,
its columns are numbered without gaps, and no two of its indexes have one id. -/
structure TableCatalog where
  shape : Nat → Option TableShape
  indexes : Nat → List IndexRow
  tableId : ∀ t s, shape t = some s → s.table.tableId = t
  ordinals : ∀ t s, shape t = some s → s.columns.map (·.ordinal) = List.range s.columns.length
  indexIds : ∀ t, ((indexes t).map (·.indexId)).Nodup

namespace TableStore

def resolveTable (catalog : TableCatalog) (tableId : Nat) : Except TxnError TableShape :=
  match catalog.shape tableId with
  | some shape => .ok shape
  | none => .error (.tableNotFound tableId)

def maintainedIndexes (catalog : TableCatalog) (tableId : Nat) : List IndexRow :=
  (catalog.indexes tableId).filter fun i =>
    i.kind ≠ .primary ∧ (i.state = .building ∨ i.state = .ready)

inductive Call where
  | putRow (tableId : Nat) (values : Row)
  | putRows (tableId : Nat) (rows : List Row)
  | deleteRow (tableId : Nat) (pkValues : List RelationalValue)

def Call.tableId : Call → Nat
  | .putRow t _ => t
  | .putRows t _ => t
  | .deleteRow t _ => t

/-- One row of a call. -/
inductive RowRequest where
  | put (values : Row)
  | delete (pkValues : List RelationalValue)

/-- A row whose old version has been read, with the operations that replace it. -/
structure PreparedRow where
  encodedPk : Bytes
  pkValues : List RelationalValue
  old : Option Row
  new : Option Row
  ops : RelOps

/-- `fetch_row_by_encoded_pk` at the latest state. -/
def fetchRow (es : RelStore) (shape : TableShape) (pkValues : List RelationalValue)
    (encodedPk : Bytes) : Option Row :=
  ((readNow es (.row shape.table.tableId encodedPk)).bind StoreValue.row?).map fun row =>
    withColumns row shape.table.pkOrdinals (pkValues.map some)

/-- What a call checks before it takes the lock. -/
def Call.checkInput (catalog : TableCatalog) : Call → Except TxnError Unit
  | .putRow _ _ => .ok ()
  | .putRows _ rows => if rows.isEmpty then .error .emptyBatch else .ok ()
  | .deleteRow tableId pkValues => do
    let shape ← resolveTable catalog tableId
    if pkValues.length ≠ shape.table.pkOrdinals.length then
      .error (.keyArity tableId shape.table.pkOrdinals.length pkValues.length)
    else .ok ()

def validateRows (shape : TableShape) : List Row → Except TxnError Unit
  | [] => .ok ()
  | row :: rows => do
    (validateRowShape shape.table shape.columns row).mapError .relational
    validateRows shape rows

/-- The rows of a call, all of them checked before the first is read. -/
def Call.requests (shape : TableShape) : Call → Except TxnError (List RowRequest)
  | .putRow _ values => do
    validateRows shape [values]
    .ok [.put values]
  | .putRows _ rows => do
    validateRows shape rows
    .ok (rows.map .put)
  | .deleteRow _ pkValues => .ok [.delete pkValues]

/-- Without an index the old row is not read. -/
def prepareRow (es : RelStore) (shape : TableShape) (indexes : List IndexRow) :
    RowRequest → Except TxnError PreparedRow
  | .put values => do
    let pkValues ← (extractPkValues shape.table values).mapError .relational
    let encodedPk ← (encodeCompositeKey pkValues).mapError .key
    let old := if indexes.isEmpty then none else fetchRow es shape pkValues encodedPk
    let maintenance ← indexMaintenanceOps shape.table.tableId old (some values) encodedPk indexes
    let _ ← (buildPutValue shape.table shape.columns values).mapError .relational
    .ok ⟨encodedPk, pkValues, old, some values, maintenance ++
      [(.row shape.table.tableId encodedPk, some (.row shape.table.schemaVersion values))]⟩
  | .delete pkValues => do
    let encodedPk ← (encodeCompositeKey pkValues).mapError .key
    let old := if indexes.isEmpty then none else fetchRow es shape pkValues encodedPk
    let maintenance ← indexMaintenanceOps shape.table.tableId old none encodedPk indexes
    .ok ⟨encodedPk, pkValues, old, none,
      maintenance ++ [(.row shape.table.tableId encodedPk, none)]⟩

/-! ## The process -/

inductive Pc where
  | idle
  | locked (call : Call)
  | reading (shape : TableShape) (todo : List RowRequest) (done : List PreparedRow)
  | submitted (tableId : Nat)
  | applied (tableId : Nat)

inductive Action where
  | call (call : Call)
  | next

/-- A failed check, like the end of the call, gives the lock back. -/
def step (catalog : TableCatalog) (seen : Seen StoreKey StoreValue Unit) :
    Pc → Action → Option (Effect Nat StoreKey StoreValue × Unit × Pc)
  | .idle, .call call =>
    match call.checkInput catalog with
    | .error _ => some (.quiet, (), .idle)
    | .ok _ => some (.acquire call.tableId false, (), .locked call)
  | .locked call, .next =>
    match resolveTable catalog call.tableId with
    | .error _ => some (.release, (), .idle)
    | .ok shape =>
      match call.requests shape with
      | .error _ => some (.release, (), .idle)
      | .ok todo => some (.quiet, (), .reading shape todo [])
  | .reading shape (request :: todo) done, .next =>
    match prepareRow seen.store shape (maintainedIndexes catalog shape.table.tableId) request with
    | .error _ => some (.release, (), .idle)
    | .ok row => some (.quiet, (), .reading shape todo (done ++ [row]))
  | .reading shape [] done, .next =>
    some (.submit (done.flatMap (·.ops)), (), .submitted shape.table.tableId)
  | .submitted tableId, .next => some (.apply, (), .applied tableId)
  | .applied _, .next => some (.release, (), .idle)
  | _, _ => none

def program (catalog : TableCatalog) : Program Nat StoreKey StoreValue Unit Pc Action where
  idle := .idle
  restart := ()
  step := step catalog

end TableStore

end RubixDb
