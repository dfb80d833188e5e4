import RubixDb.Catalog.Schema
import RubixDb.Relational.Key

/-!
# Key ranges

The physical ranges that scans are made of (`src/relational/key.rs`,
`src/relational/index_key.rs`): the rows of a table, the entries of an index, those whose
leading columns have given values, and those whose leading columns lie between bounds.
Bounds are given as encodings of leading columns. A row's key is that of an entry of index
`0`, so that `pk_range_physical_bounds` is `index_scan_range` for that index.
-/

namespace RubixDb

open Lib

/-- Where a scan starts and where it ends. -/
abbrev PhysicalBounds := Bound Bytes × Bound Bytes

def tableRowRange (tableId : Nat) : PhysicalBounds :=
  (.included (tableRowKey tableId []), .excluded (indexPrefix tableId 1))

/-- All entries of one index. The last index of a table ends where the next table's first
index starts. -/
def indexEntryRange (tableId indexId : Nat) : PhysicalBounds :=
  if indexId < u32Max then
    (.included (indexPrefix tableId indexId), .excluded (indexPrefix tableId (indexId + 1)))
  else if tableId < u32Max then
    (.included (indexPrefix tableId indexId), .excluded (indexPrefix (tableId + 1) 1))
  else (.included (indexPrefix tableId indexId), .unbounded)

/-- The bytes plus one, from the right; nothing if every byte is `FF`. -/
def incrementReversed : Bytes → Option Bytes
  | [] => none
  | b :: bs => if b = 0xFF then (incrementReversed bs).map (0 :: ·) else some ((b + 1) :: bs)

def increment (bytes : Bytes) : Option Bytes := (incrementReversed bytes.reverse).map List.reverse

/-- The entries of an index that start with `encoded`. -/
def indexEntryPrefixRange (tableId indexId : Nat) (encoded : Bytes) : PhysicalBounds :=
  (.included (indexPrefix tableId indexId ++ encoded),
    match increment encoded with
    | some next => .excluded (indexPrefix tableId indexId ++ next)
    | none => (indexEntryRange tableId indexId).2)

/-- The start of a scan. One that leaves out the entries of `bytes` starts behind them. -/
def indexScanStart (tableId indexId : Nat) : Bound Bytes → Bound Bytes
  | .unbounded => (indexEntryRange tableId indexId).1
  | .included bytes => .included (indexPrefix tableId indexId ++ bytes)
  | .excluded bytes =>
    match (indexEntryPrefixRange tableId indexId bytes).2 with
    | .excluded key => .included key
    | other => other

def indexScanEnd (tableId indexId : Nat) : Bound Bytes → Bound Bytes
  | .unbounded => (indexEntryRange tableId indexId).2
  | .excluded bytes => .excluded (indexPrefix tableId indexId ++ bytes)
  | .included bytes => (indexEntryPrefixRange tableId indexId bytes).2

def indexScanRange (tableId indexId : Nat) (start stop : Bound Bytes) : PhysicalBounds :=
  (indexScanStart tableId indexId start, indexScanEnd tableId indexId stop)

/-! ## Bounds on columns -/

/-- The columns a key sorts by: the primary key of a row, the indexed columns of an entry. -/
inductive KeyColumns where
  | primary (values : List RelationalValue)
  | indexed (values : List (Option RelationalValue))
deriving DecidableEq

def KeyColumns.encode : KeyColumns → Except KeyError Bytes
  | .primary values => encodeCompositeKey values
  | .indexed values => encodeIndexedColumns values

def encodeBound : Bound KeyColumns → Except KeyError (Bound Bytes)
  | .unbounded => .ok .unbounded
  | .included columns => columns.encode.map .included
  | .excluded columns => columns.encode.map .excluded

/-- The range of a scan between bounds on leading columns; `pk_range_physical_bounds` for
index `0`. -/
def scanBounds (tableId indexId : Nat) (start stop : Bound KeyColumns) :
    Except KeyError PhysicalBounds := do
  let start ← encodeBound start
  let stop ← encodeBound stop
  .ok (indexScanRange tableId indexId start stop)

/-! ## The keys there are -/

def catalogNamespace : UInt8 := 0x00

/-- Every key the database writes. -/
inductive PhysicalKey where
  | catalog (systemTableId : Nat) (pkBytes : Bytes)
  | row (tableId : Nat) (pkValues : List RelationalValue)
  | entry (tableId indexId : Nat) (indexed : List (Option RelationalValue))
      (pkValues : List RelationalValue)

namespace PhysicalKey

def bytes : PhysicalKey → Except KeyError Bytes
  | .catalog systemTableId pkBytes => .ok (catalogNamespace :: (beBytes 4 systemTableId ++ pkBytes))
  | .row tableId pkValues => do
    let encodedPk ← encodeCompositeKey pkValues
    .ok (tableRowKey tableId encodedPk)
  | .entry tableId indexId indexed pkValues => do
    let encodedIndexed ← encodeIndexedColumns indexed
    let encodedPk ← encodeCompositeKey pkValues
    indexEntryKey tableId indexId encodedIndexed encodedPk

/-- The table and index a key is of; rows are index `0`. -/
def slot : PhysicalKey → Option (Nat × Nat)
  | .catalog _ _ => none
  | .row tableId _ => some (tableId, 0)
  | .entry tableId indexId _ _ => some (tableId, indexId)

def columns : PhysicalKey → KeyColumns
  | .catalog _ _ => .primary []
  | .row _ pkValues => .primary pkValues
  | .entry _ _ indexed _ => .indexed indexed

end PhysicalKey

end RubixDb
