import RubixDb.Relational.KeyRange
import RubixDb.Relational.Store

/-!
# Committing a transaction

`Transaction::commit_lock_plan` and `Transaction::validate_and_build_ops`
(`src/relational/txn.rs`): which tables a commit locks, and what it checks and writes while
it holds the locks. Everything is a function of the store as it is at that moment, the
transaction and the list of foreign keys it was given.
-/

namespace RubixDb

open Lib

/-! ## Locks -/

/-- The tables that a commit looks at because of a foreign key. -/
def consulted (written : List Nat) (fk : ForeignKeyRow) : List Nat :=
  (if written.contains fk.tableId then [fk.parentTableId] else []) ++
    (if written.contains fk.parentTableId then [fk.tableId] else [])

/-- The tables to lock, in order; a table that is written is locked exclusively. -/
def commitLockPlan (tx : Txn) (fks : List ForeignKeyRow) : List (Nat × Bool) :=
  let written := tx.writes.keys
  let shared := ((fks.flatMap (consulted written)).filter fun t => !written.contains t).dedup
  (written.map (·, true) ++ shared.map (·, false)).mergeSort fun a b => a.1 ≤ b.1

/-! ## The operations of a write-set -/

def maintainedIndexes (db : Db) (tableId : Nat) : List IndexRow :=
  (db.indexes tableId).filter fun i =>
    i.kind ≠ .primary ∧ (i.state = .building ∨ i.state = .ready)

/-- A claim on a value of a `UNIQUE` index. -/
structure UniqueCheck where
  tableId : Nat
  index : IndexRow
  /-- The encoded indexed columns. -/
  value : Bytes
  ourPk : Bytes

/-- Only a row whose entry changes claims its value, and only if not all of it is `NULL`. -/
def uniqueCheck (tableId : Nat) (old : Option Row) (row : Row) (encodedPk : Bytes)
    (index : IndexRow) : Except TxnError (Option UniqueCheck) := do
  let newKey ← indexedEntryKey tableId index row encodedPk
  let oldKey ← optionalEntryKey tableId index old encodedPk
  if oldKey = some newKey ∨ (indexedValues index row).all (·.isNone) then .ok none
  else
    match encodeIndexedColumns (indexedValues index row) with
    | .error e => .error (.key e)
    | .ok value => .ok (some ⟨tableId, index, value, encodedPk⟩)

def uniqueChecks (tableId : Nat) (old : Option Row) (row : Row) (encodedPk : Bytes) :
    List IndexRow → Except TxnError (List UniqueCheck)
  | [] => .ok []
  | index :: indexes => do
    let check ← uniqueCheck tableId old row encodedPk index
    let rest ← uniqueChecks tableId old row encodedPk indexes
    .ok (check.toList ++ rest)

/-- The operations and the claims of one buffered write. -/
def buildRow (db : Db) (shape : TableShape) (indexes : List IndexRow) (encodedPk : Bytes)
    (pkValues : List RelationalValue) : RowOp → Except TxnError (RelOps × List UniqueCheck)
  | .put row => do
    let old := fetchRowByEncodedPk db.snapshot shape.table pkValues encodedPk
    let _ ← (buildPutValue shape.table shape.columns row).mapError .relational
    let maintenance ← indexMaintenanceOps shape.table.tableId old (some row) encodedPk indexes
    let checks ← uniqueChecks shape.table.tableId old row encodedPk
      (indexes.filter fun i => i.kind = .unique)
    .ok ((.row shape.table.tableId encodedPk, some (.row shape.table.schemaVersion row)) ::
      maintenance,
      checks)
  | .delete => do
    let old := fetchRowByEncodedPk db.snapshot shape.table pkValues encodedPk
    let maintenance ← indexMaintenanceOps shape.table.tableId old none encodedPk indexes
    .ok ((.row shape.table.tableId encodedPk, none) :: maintenance, [])

def buildRows (db : Db) (shape : TableShape) (indexes : List IndexRow) :
    List (Sigma fun _ : Bytes => List RelationalValue × RowOp) →
      Except TxnError (RelOps × List UniqueCheck)
  | [] => .ok ([], [])
  | e :: es => do
    let (ops, checks) ← buildRow db shape indexes e.1 e.2.1 e.2.2
    let (restOps, restChecks) ← buildRows db shape indexes es
    .ok (ops ++ restOps, checks ++ restChecks)

/-- One written table: it must not have been altered since it was first written. -/
def buildTable (db : Db) (tx : Txn) (tableId : Nat) (writes : TableWrites) :
    Except TxnError (RelOps × List UniqueCheck) := do
  let shape ← db.resolveTable tableId
  if (tx.tableVersions.lookup tableId).any (· ≠ shape.table.schemaVersion) then
    .error (.conflict .tableAltered)
  else buildRows db shape (maintainedIndexes db tableId) writes.entries

def buildTables (db : Db) (tx : Txn) :
    List (Sigma fun _ : Nat => TableWrites) → Except TxnError (RelOps × List UniqueCheck)
  | [] => .ok ([], [])
  | e :: es => do
    let (ops, checks) ← buildTable db tx e.1 e.2
    let (restOps, restChecks) ← buildTables db tx es
    .ok (ops ++ restOps, checks ++ restChecks)

/-! ## Freshness -/

/-- The keys of the rows a transaction writes. -/
def writtenRows (tx : Txn) : List StoreKey :=
  tx.writes.entries.flatMap fun t => t.2.entries.map fun e => .row t.1 e.1

/-- No written row differs now from what the snapshot sees, compared by value. -/
def rowsFresh (es : RelStore) (snapshot : Nat) (tx : Txn) : Bool :=
  (writtenRows tx).all fun k => readAt es k snapshot = readAt es k (topSeq es)

/-! ## UNIQUE -/

/-- No two rows of the write-set claim one value. -/
def claimsApart (claimed : List (Nat × Bytes × Bytes)) : List UniqueCheck → Bool
  | [] => true
  | c :: cs =>
    match claimed.find? fun x => x.1 = c.index.indexId ∧ x.2.1 = c.value with
    | some x => x.2.2 = c.ourPk && claimsApart claimed cs
    | none => claimsApart ((c.index.indexId, c.value, c.ourPk) :: claimed) cs

/-- `index_entry_prefix_range`. The keys of one index share their head, so that the bounds
are compared behind it. -/
def inPrefixRange (value body : Bytes) : Bool :=
  value ≤ body && (match increment value with
    | some stop => decide (body < stop)
    | none => true)

/-- The entries of an index visible at `s`. -/
def entriesAt (es : RelStore) (s tableId indexId : Nat) : List Bytes :=
  scanAt es s fun k _ =>
    match k with
    | .entry t i body => if t = tableId ∧ i = indexId then some body else none
    | _ => none

/-- Does this transaction remove the entry, or move its row away from the value? -/
def entryIsSelfVacated (tx : Txn) (check : UniqueCheck) (entryPk : Bytes) : Except TxnError Bool :=
  match (tx.writes.lookup check.tableId).bind (·.lookup entryPk) with
  | none => .ok false
  | some (_, .delete) => .ok true
  | some (_, .put row) =>
    match encodeIndexedColumns (indexedValues check.index row) with
    | .error e => .error (.key e)
    | .ok value => .ok (value ≠ check.value)

/-- No committed entry that stays has the claimed value. -/
def checkEntries (tx : Txn) (check : UniqueCheck) : List Bytes → Except TxnError Unit
  | [] => .ok ()
  | body :: bodies =>
    let entryPk := body.drop check.value.length
    if entryPk = check.ourPk then checkEntries tx check bodies
    else do
      if ← entryIsSelfVacated tx check entryPk then checkEntries tx check bodies
      else .error (.conflict .uniqueCommitted)

def checkUnique (es : RelStore) (tx : Txn) : List UniqueCheck → Except TxnError Unit
  | [] => .ok ()
  | check :: checks => do
    checkEntries tx check
      ((entriesAt es (topSeq es) check.tableId check.index.indexId).filter
        (inPrefixRange check.value))
    checkUnique es tx checks

/-! ## The whole of it -/

def validateAndBuildOps (limits : TxnLimits) (es : RelStore) (snapshot : Nat)
    (fks : List ForeignKeyRow) (tx : Txn) : Except TxnError RelOps := do
  let db := dbOf limits es snapshot fks
  let (ops, checks) ← buildTables db tx (tx.writes.entries.mergeSort fun a b => a.1 ≤ b.1)
  if !rowsFresh es snapshot tx then .error (.conflict .rowModified)
  else do
    validateForeignKeys db tx fks
    if !claimsApart [] checks then .error (.conflict .uniqueWithin)
    else do
      checkUnique es tx checks
      .ok ops

end RubixDb
