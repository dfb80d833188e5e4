import RubixDb.Catalog.Schema
import RubixDb.Relational.Value

/-!
# Rows of a table

The row-level half of `src/relational/table_store.rs`: which rows fit a table's shape,
the bytes a row is stored as, and reading those bytes back. Key columns are not stored;
the reader merges them in. A row is decoded against the columns that existed when it was
written, going by the `schema_version` in its envelope; a column added later reads as its
backfill value.
-/

namespace RubixDb

open Lib

inductive RelationalError where
  | catalog (error : CatalogError)
  | decimalWithoutParams (column : String)
  | decimalParamsLength (column : String)
  | unknownDataType (column : String) (tag : UInt8)
  | typeMismatch (column : String)
  | decimalPrecision (precision : Nat)
  | decimalScale (scale precision : Nat)
  | decimalTooLarge (value : Int) (precision : Nat)
  | rowLength (expected got : Nat)
  | noValueSupplied (column : String) (ordinal : Nat)
  | pkNull (column : String)
  | notNull (column : String)
  | rowTooLarge (tableId size : Nat)
  | rowShorterThanHeader
  | fewerFields
  /-- An index out of bounds, which the source panics on. -/
  | panicked
deriving DecidableEq

def maxRowValueBytes : Nat := 1024 * 1024

def maxDecimalPrecision : Nat := 38

/-! ## Shapes -/

def relationalTypeFromColumn (column : ColumnRow) : Except RelationalError RelationalType :=
  match column.dataType with
  | 1 => .ok .boolean
  | 2 => .ok .integer
  | 3 => .ok .bigint
  | 4 => .ok .real
  | 5 => .ok .double
  | 6 =>
    match column.typeParams with
    | none => .error (.decimalWithoutParams column.name)
    | some [_, scale] => .ok (.decimal scale)
    | some _ => .error (.decimalParamsLength column.name)
  | 7 => .ok .text
  | 8 => .ok .blob
  | 9 => .ok .date
  | 10 => .ok .time
  | 11 => .ok .timestamp
  | other => .error (.unknownDataType column.name other)

/-- The arms of the source's `matches!` pair each value with its own type, a decimal with
its own scale. -/
def checkValueMatchesType (value : RelationalValue) (expected : RelationalType)
    (columnName : String) : Except RelationalError Unit :=
  if value.valueType = expected then .ok () else .error (.typeMismatch columnName)

/-- `10i128.checked_pow(precision)` does not overflow up to precision 38. -/
def validateDecimal (value : Int) (precision scale : Nat) : Except RelationalError Unit :=
  if precision = 0 ∨ maxDecimalPrecision < precision then .error (.decimalPrecision precision)
  else if precision < scale then .error (.decimalScale scale precision)
  else if 10 ^ precision ≤ value.natAbs then .error (.decimalTooLarge value precision)
  else .ok ()

def validateDecimalParams (value : RelationalValue) (typeParams : Option Bytes) :
    Except RelationalError Unit :=
  match value, typeParams with
  | .decimal v _, some [precision, scale] => validateDecimal v.toInt precision.toNat scale.toNat
  | _, _ => .ok ()

/-- The checks on one column's value. -/
def validateField (table : TableRow) (column : ColumnRow) :
    Option RelationalValue → Except RelationalError Unit
  | none =>
    if column.ordinal ∈ table.pkOrdinals then .error (.pkNull column.name)
    else if column.nullable then .ok () else .error (.notNull column.name)
  | some value => do
    let expected ← relationalTypeFromColumn column
    checkValueMatchesType value expected column.name
    validateDecimalParams value column.typeParams

def validateFields (table : TableRow) (values : Row) : List ColumnRow → Except RelationalError Unit
  | [] => .ok ()
  | column :: columns =>
    match values[column.ordinal]? with
    | none => .error (.noValueSupplied column.name column.ordinal)
    | some value => do
      validateField table column value
      validateFields table values columns

def validateRowShape (table : TableRow) (columns : List ColumnRow) (values : Row) :
    Except RelationalError Unit :=
  if values.length ≠ columns.length then .error (.rowLength columns.length values.length)
  else validateFields table values columns

/-- The key values of a row that passed `validate_row_shape`. -/
def extractPkValues (table : TableRow) (values : Row) :
    Except RelationalError (List RelationalValue) :=
  table.pkOrdinals.mapM fun ordinal =>
    match values[ordinal]? with
    | some (some value) => .ok value
    | _ => .error .panicked

/-! ## Stored rows -/

/-- The columns whose values are in a row's bytes. -/
def nonKeyColumns (table : TableRow) (columns : List ColumnRow) : List ColumnRow :=
  columns.filter fun c => c.ordinal ∉ table.pkOrdinals

/-- How many of a table's columns are stored. -/
def TableShape.storedCount (s : TableShape) : Nat := (nonKeyColumns s.table s.columns).length

def nonPkFields (table : TableRow) (columns : List ColumnRow) (values : Row) :
    Except RelationalError Row :=
  (nonKeyColumns table columns).mapM fun c =>
    match values[c.ordinal]? with
    | some value => .ok value
    | none => .error .panicked

/-- The value `build_put_op` stores at the row's key. -/
def buildPutValue (table : TableRow) (columns : List ColumnRow) (values : Row) :
    Except RelationalError Bytes := do
  let fields ← nonPkFields table columns values
  let rowBytes := encodeRow table.schemaVersion fields
  if maxRowValueBytes < rowBytes.length then .error (.rowTooLarge table.tableId rowBytes.length)
  else .ok rowBytes

/-- The `schema_version` stamped in a row's envelope. -/
def peekRowSchemaVersion (valueBytes : Bytes) : Except RelationalError Nat :=
  if valueBytes.length < 5 then .error .rowShorterThanHeader
  else .ok (leNat ((valueBytes.drop 1).take 4))

/-- A literal the catalog stores for a column: a row of one field. -/
def decodeLiteral (column : ColumnRow) (bytes : Bytes) :
    Except RelationalError (Option RelationalValue) := do
  let ty ← relationalTypeFromColumn column
  match decodeRow bytes [ty] with
  | .error e => .error (.catalog e)
  | .ok (_, fields) => .ok (fields.getLast?.getD none)

/-- What a row written before `column` was added reads as for it. -/
def decodeBackfill (column : ColumnRow) : Except RelationalError (Option RelationalValue) :=
  match column.backfillValue with
  | none => .ok none
  | some bytes => decodeLiteral column bytes

/-- Put the key values and the decoded fields into column order. -/
def mergeRow (table : TableRow) (pkValues : List RelationalValue) (rowVersion : Nat) :
    List ColumnRow → Row → Except RelationalError Row
  | [], _ => .ok []
  | column :: columns, fields =>
    if column.ordinal ∉ table.pkOrdinals ∧ rowVersion < column.addedInSchemaVersion then do
      let value ← decodeBackfill column
      let rest ← mergeRow table pkValues rowVersion columns fields
      .ok (value :: rest)
    else if column.ordinal ∈ table.pkOrdinals then
      match pkValues[table.pkOrdinals.idxOf column.ordinal]? with
      | none => .error .panicked
      | some value => do
        let rest ← mergeRow table pkValues rowVersion columns fields
        .ok (some value :: rest)
    else
      match fields with
      | [] => .error .fewerFields
      | value :: fields => do
        let rest ← mergeRow table pkValues rowVersion columns fields
        .ok (value :: rest)

/-- The columns a row stamped `rowVersion` holds, going by `columns`. -/
def storedColumns (table : TableRow) (columns : List ColumnRow) (rowVersion : Nat) :
    List ColumnRow :=
  columns.filter fun c => c.ordinal ∉ table.pkOrdinals ∧ c.addedInSchemaVersion ≤ rowVersion

def decodeFullRow (table : TableRow) (columns : List ColumnRow) (pkValues : List RelationalValue)
    (valueBytes : Bytes) : Except RelationalError Row := do
  let rowVersion ← peekRowSchemaVersion valueBytes
  let storedTypes ← (storedColumns table columns rowVersion).mapM relationalTypeFromColumn
  match decodeRow valueBytes storedTypes with
  | .error e => .error (.catalog e)
  | .ok (_, fields) => mergeRow table pkValues rowVersion columns fields

end RubixDb
