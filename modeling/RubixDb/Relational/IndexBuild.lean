import RubixDb.Relational.Commit
import RubixDb.Relational.Ddl

/-!
# Building and dropping an index, step by step

`src/relational/index.rs`. A build finds its index `Building` in the catalog (the row that
`create_index_online` has just written, or one that an earlier run left behind), takes a
snapshot and visits every primary key the table has there, in chunks. For a chunk it holds
the table's epoch lock and writes the entries of the rows as they are now. A `UNIQUE` index
is then looked through for a value that occurs twice. At last the index becomes `Ready`.

A drop finds its index `Dropping`. It deletes the entries in chunks, holding no lock, and
then the index's row.

Taking a snapshot and opening the scan at it are two steps, as anything may be applied in
between. A build that fails stops where it is; that the index is then marked `Failed` is a
change of the catalog like any other.
-/

namespace RubixDb

open Lib

/-- `BACKFILL_CHUNK_ROWS`. -/
def backfillChunkRows : Nat := 500

/-- `SWEEP_CHUNK_ROWS`. -/
def sweepChunkRows : Nat := 1000

/-! ## The entries of a chunk -/

/-- The entry of each row of the chunk that is still there. -/
def chunkOps (es : RelStore) (index : IndexRow) : List Bytes → Except TxnError RelOps
  | [] => .ok []
  | pk :: pks =>
    match rowAt es (topSeq es) index.tableId pk with
    | none => chunkOps es index pks
    | some row => do
      let key ← indexedEntryKey index.tableId index row pk
      let rest ← chunkOps es index pks
      .ok ((key, some .marker) :: rest)

/-! ## UNIQUE -/

/-- The types of an index's columns; nothing if one of them is no longer there. -/
def indexTypes (columns : List ColumnRow) (index : IndexRow) : Option (List RelationalType) :=
  index.columnOrdinals.mapM fun o =>
    (columns.find? fun c => c.ordinal = o).bind fun c => (relationalTypeFromColumn c).toOption

/-- The loop of `verify_unique_entries` over the entries in key order: no two neighbours
have the same indexed bytes, those of a tuple of `NULL`s apart. -/
def entriesDistinct (types : List RelationalType) : Option Bytes → List Bytes → Bool
  | _, [] => true
  | previous, body :: bodies =>
    match decodeIndexedColumns body 0 types with
    | .error _ => false
    | .ok (values, consumed) =>
      if values.all (·.isNone) then entriesDistinct types none bodies
      else previous ≠ some (body.take consumed) &&
        entriesDistinct types (some (body.take consumed)) bodies

/-- The entries of an index visible at `s`, in key order. -/
def sortedEntriesAt (es : RelStore) (s tableId indexId : Nat) : List Bytes :=
  (entriesAt es s tableId indexId).mergeSort (· ≤ ·)

def verifyUniqueEntries (es : RelStore) (snapshot : Nat) (index : IndexRow) : Bool :=
  match (tableAt es (topSeq es) index.tableId).bind fun shape => indexTypes shape.columns index with
  | none => false
  | some types =>
    entriesDistinct types none (sortedEntriesAt es snapshot index.tableId index.indexId)

/-! ## A build -/

inductive BackfillPhase where
  | started
  | snapped (snapshot : Nat)
  /-- The primary keys still to be visited. -/
  | filling (todo : List Bytes)
  /-- The epoch lock is held for `chunk`. -/
  | locked (chunk todo : List Bytes)
  | logged (todo : List Bytes)
  | applied (todo : List Bytes)
  | verifying
  | verifyingAt (snapshot : Nat)
  | filled
  /-- `ddl_lock` is held. -/
  | owning
  | readyLogged
  | readyApplied

structure Backfill where
  index : IndexRow
  phase : BackfillPhase

namespace Backfill

/-- The index must be `Building`. -/
def start (es : RelStore) (indexId : Nat) : Option Backfill :=
  ((getIndexAsOf es (topSeq es) indexId).filter fun row => row.state = .building).map
    (⟨·, .started⟩)

/-- The next step; the process is over when there is no next phase. -/
def next (seen : RelSeen) (b : Backfill) : Option (RelEffect × Caches × Option Backfill) :=
  match b.phase with
  | .started => some (.quiet, seen.shared, some { b with phase := .snapped seen.durable })
  | .snapped snapshot =>
    some (.quiet, seen.shared,
      some { b with phase := .filling (rowsAt seen.store snapshot b.index.tableId).keys })
  | .filling [] =>
    some (.quiet, seen.shared,
      some { b with phase := if b.index.kind = .unique then .verifying else .filled })
  | .filling (pk :: pks) =>
    some (.acquire (.epoch b.index.tableId) true, seen.shared, some { b with
      phase := .locked ((pk :: pks).take backfillChunkRows) ((pk :: pks).drop backfillChunkRows) })
  | .locked chunk todo =>
    match chunkOps seen.store b.index chunk with
    | .error _ => some (.release, seen.shared, none)
    | .ok [] => some (.release, seen.shared, some { b with phase := .filling todo })
    | .ok (op :: ops) =>
      some (.submit (op :: ops), seen.shared, some { b with phase := .logged todo })
  | .logged todo => some (.apply, seen.shared, some { b with phase := .applied todo })
  | .applied todo => some (.release, seen.shared, some { b with phase := .filling todo })
  | .verifying => some (.quiet, seen.shared, some { b with phase := .verifyingAt seen.durable })
  | .verifyingAt snapshot =>
    some (.quiet, seen.shared,
      if verifyUniqueEntries seen.store snapshot b.index then some { b with phase := .filled }
      else none)
  | .filled => some (.acquire .ddl true, seen.shared, some { b with phase := .owning })
  | .owning =>
    match DdlJob.transitionIndexState seen.store b.index.indexId [.building] .ready with
    | some ops => some (.submit ops, seen.shared, some { b with phase := .readyLogged })
    | none => some (.release, seen.shared, none)
  | .readyLogged => some (.apply, seen.shared, some { b with phase := .readyApplied })
  | .readyApplied => some (.release, seen.shared, none)

/-- An error, or a recovery that is cancelled. -/
def abort (seen : RelSeen) (b : Backfill) : Option (RelEffect × Caches × Option Backfill) :=
  match b.phase with
  | .logged _ => none
  | .readyLogged => none
  | _ => some (.release, seen.shared, none)

end Backfill

/-! ## A drop -/

inductive SweepPhase where
  /-- The entries up to `cursor` have been deleted. -/
  | sweeping (cursor : Option Bytes)
  | logged (cursor : Option Bytes)
  | swept
  /-- `ddl_lock` is held. -/
  | owning
  | removeLogged
  | removeApplied

structure Sweep where
  index : IndexRow
  phase : SweepPhase

namespace Sweep

/-- The index must be `Dropping`. -/
def start (es : RelStore) (indexId : Nat) : Option Sweep :=
  ((getIndexAsOf es (topSeq es) indexId).filter fun row => row.state = .dropping).map
    (⟨·, .sweeping none⟩)

/-- The next entries to delete. -/
def chunk (es : RelStore) (index : IndexRow) (cursor : Option Bytes) : List Bytes :=
  ((sortedEntriesAt es (topSeq es) index.tableId index.indexId).filter
    fun body => cursor.all (· < body)).take sweepChunkRows

/-- `remove_index_row`. -/
def removeOps (es : RelStore) (indexId : Nat) : Option RelOps :=
  match getIndexAsOf es (topSeq es) indexId with
  | some row => if row.state = .dropping then some [(.index indexId, none)] else none
  | none => none

def next (seen : RelSeen) (s : Sweep) : Option (RelEffect × Caches × Option Sweep) :=
  match s.phase with
  | .sweeping cursor =>
    match chunk seen.store s.index cursor with
    | [] => some (.quiet, seen.shared, some { s with phase := .swept })
    | body :: bodies =>
      some (.submit
        ((body :: bodies).map fun b => (.entry s.index.tableId s.index.indexId b, none)),
        seen.shared, some { s with phase := .logged (body :: bodies).getLast? })
  | .logged cursor => some (.apply, seen.shared, some { s with phase := .sweeping cursor })
  | .swept => some (.acquire .ddl true, seen.shared, some { s with phase := .owning })
  | .owning =>
    match removeOps seen.store s.index.indexId with
    | some ops => some (.submit ops, seen.shared, some { s with phase := .removeLogged })
    | none => some (.release, seen.shared, none)
  | .removeLogged => some (.apply, seen.shared, some { s with phase := .removeApplied })
  | .removeApplied => some (.release, seen.shared, none)

def abort (seen : RelSeen) (s : Sweep) : Option (RelEffect × Caches × Option Sweep) :=
  match s.phase with
  | .logged _ => none
  | .removeLogged => none
  | _ => some (.release, seen.shared, none)

end Sweep

end RubixDb
