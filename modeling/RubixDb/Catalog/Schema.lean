import RubixDb.Catalog.Encoding

/-!
# Table shapes

The catalog rows that say what a table's rows look like, and the two operations of
`src/catalog/service.rs` that make them: `create_table` and `add_column`. Columns are
only ever appended, and each carries the `schema_version` that added it.

What these two read of the rest of the catalog (that the schema exists, that no table
of the name does, the allocated id) decides whether they run, not the shape they make;
`createTable` takes the id it was given.
-/

namespace RubixDb

inductive TableState where
  | active
  | dropping
deriving DecidableEq, Repr

structure TableRow where
  tableId : Nat
  pkOrdinals : List Nat
  schemaVersion : Nat
  state : TableState
deriving DecidableEq, Repr

structure ColumnDef where
  name : String
  dataType : UInt8
  nullable : Bool
  defaultValue : Option Bytes := none
  typeParams : Option Bytes := none
deriving DecidableEq, Repr

structure ColumnRow where
  tableId : Nat
  ordinal : Nat
  name : String
  dataType : UInt8
  nullable : Bool
  defaultValue : Option Bytes
  addedInSchemaVersion : Nat
  typeParams : Option Bytes
  backfillValue : Option Bytes
deriving DecidableEq, Repr

/-- A table row and its columns in ordinal order, as `resolve_table` returns them. -/
structure TableShape where
  table : TableRow
  columns : List ColumnRow
deriving DecidableEq, Repr

def u16Max : Nat := 2 ^ 16 - 1

def validateName (name kind : String) : Except CatalogError Unit :=
  if name = "" then .error (.emptyName kind)
  else if 255 < name.utf8ByteSize then .error (.nameTooLong kind)
  else .ok ()

/-- Every key column exists and is `NOT NULL`. -/
def checkPkOrdinals (columns : List ColumnDef) : List Nat → Except CatalogError Unit
  | [] => .ok ()
  | ordinal :: rest =>
    match columns[ordinal]? with
    | none => .error (.pkOrdinalOutOfRange ordinal columns.length)
    | some column =>
      if column.nullable then .error (.pkNullable ordinal column.name)
      else checkPkOrdinals columns rest

/-- No name occurs twice; `seen` holds the names before. -/
def checkNames (seen : List String) : List ColumnDef → Except CatalogError Unit
  | [] => .ok ()
  | column :: rest =>
    if column.name ∈ seen then .error (.duplicateColumn column.name)
    else checkNames (column.name :: seen) rest

/-- The row of a column that `schemaVersion` adds at `ordinal`. -/
def columnRow (tableId ordinal schemaVersion : Nat) (column : ColumnDef)
    (backfillValue : Option Bytes) : ColumnRow where
  tableId := tableId
  ordinal := ordinal
  name := column.name
  dataType := column.dataType
  nullable := column.nullable
  defaultValue := column.defaultValue
  addedInSchemaVersion := schemaVersion
  typeParams := column.typeParams
  backfillValue := backfillValue

def createTable (tableId : Nat) (name : String) (columns : List ColumnDef)
    (pkOrdinals : List Nat) : Except CatalogError TableShape := do
  validateName name "table"
  if columns = [] then .error .noColumns
  else if u16Max < columns.length then .error .tooManyColumns
  else if pkOrdinals = [] then .error .noPrimaryKey
  else do
    checkPkOrdinals columns pkOrdinals
    checkNames [] columns
    .ok
      { table := ⟨tableId, pkOrdinals, 1, .active⟩
        columns := columns.mapIdx fun ordinal column => columnRow tableId ordinal 1 column none }

/-- The table row with its `schema_version` bumped, saturating. -/
def alterTableRow (table : TableRow) : TableRow :=
  { table with schemaVersion := min (table.schemaVersion + 1) u32Max }

def addColumn (shape : TableShape) (column : ColumnDef) (backfillValue : Option Bytes) :
    Except CatalogError TableShape := do
  validateName column.name "column"
  if shape.table.state ≠ .active then .error (.tableDropping shape.table.tableId)
  else if column.name ∈ shape.columns.map (·.name) then .error (.columnExists column.name)
  else if u16Max ≤ shape.columns.length then .error .tooManyColumns
  else
    let table := alterTableRow shape.table
    .ok
      { table := table
        columns := shape.columns ++
          [columnRow table.tableId shape.columns.length table.schemaVersion column backfillValue] }

/-- `ALTER TABLE ADD COLUMN` calls, one after another. -/
def addColumns : TableShape → List (ColumnDef × Option Bytes) → Except CatalogError TableShape
  | shape, [] => .ok shape
  | shape, (column, backfillValue) :: rest => do
    let shape ← addColumn shape column backfillValue
    addColumns shape rest

end RubixDb
