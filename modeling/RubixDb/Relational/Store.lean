import RubixDb.Lib.LockedStore
import RubixDb.Relational.ForeignKey

/-!
# The relational store

What the relational layer keeps in the engine, by kind of key: the catalog's counters and
rows, the rows of the tables, and the index entries. Keys and values stand decoded; that
the encodings tell them apart is the subject of the codecs. A table's row and its column
rows are written together and are one value here. A row is kept with the `schema_version`
of its envelope, so that two stored rows are equal when their bytes are.
-/

namespace RubixDb

open Lib

inductive CounterKind where
  | table
  | index
  | constraint
deriving DecidableEq

inductive StoreKey where
  | counter (kind : CounterKind)
  | table (tableId : Nat)
  | constraint (constraintId : Nat)
  | foreignKey (fkId : Nat)
  | index (indexId : Nat)
  | row (tableId : Nat) (encodedPk : Bytes)
  /-- The indexed columns and the primary key, encoded one after the other. -/
  | entry (tableId indexId : Nat) (body : Bytes)
deriving DecidableEq

inductive StoreValue where
  | number (n : Nat)
  | table (shape : TableShape)
  | constraint (row : ConstraintRow)
  | foreignKey (row : ForeignKeyRow)
  | index (row : IndexRow)
  | row (schemaVersion : Nat) (row : Row)
  /-- An index entry says everything in its key. -/
  | marker
deriving DecidableEq

abbrev RelStore := Store StoreKey StoreValue

abbrev RelOps := Ops StoreKey StoreValue

/-! ## Catalog reads -/

def StoreValue.table? : StoreValue → Option TableShape
  | .table shape => some shape
  | _ => none

def StoreValue.number? : StoreValue → Option Nat
  | .number n => some n
  | _ => none

def StoreValue.index? : StoreValue → Option IndexRow
  | .index i => some i
  | _ => none

def StoreValue.row? : StoreValue → Option Row
  | .row _ r => some r
  | _ => none

def StoreValue.foreignKey? : StoreValue → Option ForeignKeyRow
  | .foreignKey fk => some fk
  | _ => none

def StoreValue.constraint? : StoreValue → Option ConstraintRow
  | .constraint c => some c
  | _ => none

/-- `TableRow::from_fields`: a table's row has its id from the key. -/
def TableShape.withId (shape : TableShape) (tableId : Nat) : TableShape :=
  { shape with table := { shape.table with tableId := tableId } }

/-- `resolve_table`. -/
def tableAt (es : RelStore) (s tableId : Nat) : Option TableShape :=
  ((readAt es (.table tableId) s).bind StoreValue.table?).map (·.withId tableId)

theorem tableId_of_tableAt {es : RelStore} {s tableId : Nat} {shape : TableShape}
    (h : tableAt es s tableId = some shape) : shape.table.tableId = tableId := by
  obtain ⟨stored, -, rfl⟩ := Option.map_eq_some_iff.mp h
  rfl

def getIndexAsOf (es : RelStore) (s indexId : Nat) : Option IndexRow :=
  (readAt es (.index indexId) s).bind StoreValue.index?

/-- The rows of `system.foreign_keys`. -/
def foreignKeysAt (es : RelStore) (s : Nat) : List ForeignKeyRow :=
  scanAt es s fun k v =>
    match k with
    | .foreignKey _ => v.foreignKey?
    | _ => none

/-- The `CHECK` rows of `system.constraints`. -/
def checkConstraintsAt (es : RelStore) (s : Nat) : List ConstraintRow :=
  scanAt es s fun k v =>
    match k with
    | .constraint _ => v.constraint?
    | _ => none

def listIndexesAt (es : RelStore) (s tableId : Nat) : List IndexRow :=
  scanAt es s fun k v =>
    match k with
    | .index _ => v.index?.filter fun i => i.tableId = tableId
    | _ => none

/-! ## Row reads -/

def rowAt (es : RelStore) (s tableId : Nat) (encodedPk : Bytes) : Option Row :=
  (readAt es (.row tableId encodedPk) s).bind StoreValue.row?

/-- The keys of a table's rows that the store has any version of. -/
def rowKeys (es : RelStore) (tableId : Nat) : List Bytes :=
  es.filterMap fun v =>
    match v.key with
    | .row t pk => if t = tableId then some pk else none
    | _ => none

/-- A table's rows visible at `s`. -/
def rowsAt (es : RelStore) (s : Nat) : View := fun tableId =>
  (rowKeys es tableId).foldr
    (fun pk rows => ((rowAt es s tableId pk).map fun row => rows.insert pk row).getD rows) ∅

/-! ## What a transaction's calls see -/

/-- The database as a transaction with snapshot `snapshot` finds it now; the foreign keys
are the list it was given. -/
def dbOf (limits : TxnLimits) (es : RelStore) (snapshot : Nat) (fks : List ForeignKeyRow) : Db where
  shape := tableAt es (topSeq es)
  indexes := listIndexesAt es (topSeq es)
  foreignKeys := fks
  snapshot := rowsAt es snapshot
  latest := rowsAt es (topSeq es)
  limits := limits

/-! ## Index entries -/

/-- The values a row has in an index's columns. -/
def indexedValues (index : IndexRow) (row : Row) : List (Option RelationalValue) :=
  index.columnOrdinals.map (columnValue row)

def indexedEntryKey (tableId : Nat) (index : IndexRow) (row : Row) (encodedPk : Bytes) :
    Except TxnError StoreKey :=
  match index.columnOrdinals.find? (row.length ≤ ·) with
  | some ordinal => .error (.indexColumnOutside index.indexId ordinal)
  | none =>
    match encodeIndexedColumns (indexedValues index row) with
    | .error e => .error (.key e)
    | .ok indexed =>
      match indexEntryKey tableId index.indexId indexed encodedPk with
      | .error e => .error (.key e)
      | .ok _ => .ok (.entry tableId index.indexId (indexed ++ encodedPk))

/-- `indexed_entry_key` of a row that may be absent. -/
def optionalEntryKey (tableId : Nat) (index : IndexRow) (row : Option Row) (encodedPk : Bytes) :
    Except TxnError (Option StoreKey) :=
  match row with
  | none => .ok none
  | some row => (indexedEntryKey tableId index row encodedPk).map some

def indexMaintenanceOps (tableId : Nat) (old new : Option Row) (encodedPk : Bytes) :
    List IndexRow → Except TxnError RelOps
  | [] => .ok []
  | index :: indexes => do
    let oldKey ← optionalEntryKey tableId index old encodedPk
    let newKey ← optionalEntryKey tableId index new encodedPk
    let rest ← indexMaintenanceOps tableId old new encodedPk indexes
    let deletes : RelOps := if oldKey = newKey then [] else oldKey.toList.map fun k => (k, none)
    .ok (deletes ++ newKey.toList.map (fun k => (k, some .marker)) ++ rest)

end RubixDb
