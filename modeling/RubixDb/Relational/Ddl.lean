import RubixDb.Sql.Check

/-!
# Changes of the catalog, step by step

The catalog changes that a transaction can meet (`src/relational/alter.rs`,
`src/catalog/service.rs`): adding and dropping a `CHECK` constraint or a foreign key,
creating a table with its constraints, and the states of an index. All go the same way:

1. the epoch locks of the tables concerned are taken exclusively, in order;
2. the existing rows are checked, if the change asks for it;
3. `ddl_lock` is taken, the catalog is looked at again and one batch is submitted;
4. once the batch is applied the caches are invalidated;
5. all locks are released.

A batch can be applied and `write_batch` fail all the same (the memtable was full and
could not be frozen); then the fourth step is left out. An error anywhere before the batch
ends the change.
-/

namespace RubixDb

open Lib

/-- A foreign key of a table to be created; without a parent it refers to the table. -/
structure NewTableForeignKey where
  name : String
  childOrdinals : List Nat
  parentTableId : Option Nat
  parentOrdinals : List Nat
  onDelete : FkAction
  onUpdate : FkAction

structure NewTableCheck where
  name : String
  expression : String

structure NewForeignKey where
  tableId : Nat
  name : String
  childOrdinals : List Nat
  parentTableId : Nat
  parentOrdinals : List Nat
  onDelete : FkAction
  onUpdate : FkAction

inductive DdlJob where
  | addCheck (tableId : Nat) (name expression : String)
  | dropCheck (check : ConstraintRow)
  | addForeignKey (new : NewForeignKey)
  | dropForeignKey (fk : ForeignKeyRow)
  | createTable (name : String) (columns : List ColumnDef) (pkOrdinals : List Nat)
      (foreignKeys : List NewTableForeignKey) (checks : List NewTableCheck)
  | createIndex (tableId : Nat) (name : String) (kind : IndexKind) (columnOrdinals : List Nat)
  | markFailed (indexId : Nat)
  | markDropping (index : IndexRow)

namespace DdlJob

/-- The tables whose epoch locks are taken. -/
def tables : DdlJob → List Nat
  | .addCheck t _ _ => [t]
  | .dropCheck check => [check.tableId]
  | .addForeignKey new => [new.tableId, new.parentTableId].dedup.mergeSort (· ≤ ·)
  | .dropForeignKey fk => [fk.tableId, fk.parentTableId].dedup.mergeSort (· ≤ ·)
  | .createTable _ _ _ _ _ => []
  | .createIndex t _ _ _ => [t]
  | .markFailed _ => []
  | .markDropping index => [index.tableId]

/-- Does every row of the child table have its parent? -/
def rowsReferenced (es : RelStore) (new : NewForeignKey) : Bool :=
  (rowsAt es (topSeq es) new.tableId).entries.all fun child =>
    match tupleOf child.2 new.childOrdinals with
    | none => true
    | some key =>
      (rowsAt es (topSeq es) new.parentTableId).entries.any fun parent =>
        rowMatches parent.2 new.parentOrdinals key

/-- The existing rows allow the change. -/
def accepts (eval : CheckEval) (es : RelStore) : DdlJob → Bool
  | .addCheck t _ expression =>
    (rowsAt es (topSeq es) t).entries.all fun row =>
      firstViolation eval [⟨0, t, "", expression⟩] row.2 = some none
  | .addForeignKey new => rowsReferenced es new
  | _ => true

/-- `allocate_id`: the next id, and its counter operation. -/
def allocateId (es : RelStore) (kind : CounterKind) :
    Option (Nat × (StoreKey × Option StoreValue)) :=
  let current := ((readNow es (.counter kind)).bind StoreValue.number?).getD 0
  if current < u32Max then some (current + 1, (.counter kind, some (.number (current + 1))))
  else none

/-- `require_active_table`. -/
def requireActiveTable (es : RelStore) (tableId : Nat) : Option TableShape :=
  (tableAt es (topSeq es) tableId).filter fun shape => shape.table.state = .active

/-- The table row with its `schema_version` bumped. -/
def alterTableOp (shape : TableShape) : StoreKey × Option StoreValue :=
  (.table shape.table.tableId, some (.table { shape with table := alterTableRow shape.table }))

/-- `transition_index_state`. -/
def transitionIndexState (es : RelStore) (indexId : Nat) (allowedFrom : List IndexState)
    (state : IndexState) : Option RelOps :=
  match getIndexAsOf es (topSeq es) indexId with
  | some row =>
    if allowedFrom.contains row.state then
      some [(.index indexId, some (.index { row with state := state }))]
    else none
  | none => none

/-- A name is free among a table's foreign keys and `CHECK` constraints. -/
def nameFree (es : RelStore) (caches : Caches) (tableId : Nat) (name : String) : Bool :=
  (caches.foreignKeys.list (foreignKeysAt es (topSeq es))).all (fun fk =>
      fk.tableId ≠ tableId ∨ fk.name ≠ name) &&
    (caches.checks.list (checkConstraintsAt es (topSeq es))).all (fun c =>
      c.tableId ≠ tableId ∨ c.name ≠ name)

def addCheckOps (es : RelStore) (caches : Caches) (tableId : Nat) (name expression : String) :
    Option RelOps := do
  let shape ← requireActiveTable es tableId
  if nameFree es caches tableId name then
    let (id, counter) ← allocateId es .constraint
    some [counter, alterTableOp shape,
      (.constraint id, some (.constraint ⟨id, tableId, name, expression⟩))]
  else none

/-- The row is looked up in the list that `check_constraints` returns. -/
def dropCheckOps (es : RelStore) (caches : Caches) (check : ConstraintRow) : Option RelOps :=
  if (caches.checks.list (checkConstraintsAt es (topSeq es))).contains check then
    some ((.constraint check.constraintId, none) ::
      ((tableAt es (topSeq es) check.tableId).map alterTableOp).toList)
  else none

def addForeignKeyOps (es : RelStore) (caches : Caches) (new : NewForeignKey) : Option RelOps := do
  let child ← requireActiveTable es new.tableId
  let _ ← requireActiveTable es new.parentTableId
  if nameFree es caches new.tableId new.name ∧
    new.childOrdinals.length = new.parentOrdinals.length then
    let (id, counter) ← allocateId es .constraint
    some [counter, alterTableOp child,
      (.foreignKey id, some (.foreignKey ⟨id, new.tableId, new.name, new.childOrdinals,
        new.parentTableId, new.parentOrdinals, new.onDelete, new.onUpdate⟩))]
  else none

def dropForeignKeyOps (es : RelStore) (caches : Caches) (fk : ForeignKeyRow) : Option RelOps :=
  if (caches.foreignKeys.list (foreignKeysAt es (topSeq es))).contains fk then
    some ((.foreignKey fk.fkId, none) ::
      ((tableAt es (topSeq es) fk.tableId).map alterTableOp).toList)
  else none

/-- The rows of a new table's foreign keys, numbered from `first`. -/
def newForeignKeyRows (tableId : Nat) : Nat → List NewTableForeignKey → List ForeignKeyRow
  | _, [] => []
  | first, fk :: fks =>
    ⟨first, tableId, fk.name, fk.childOrdinals, fk.parentTableId.getD tableId, fk.parentOrdinals,
      fk.onDelete, fk.onUpdate⟩ :: newForeignKeyRows tableId (first + 1) fks

def newCheckRows (tableId : Nat) : Nat → List NewTableCheck → List ConstraintRow
  | _, [] => []
  | first, c :: cs => ⟨first, tableId, c.name, c.expression⟩ :: newCheckRows tableId (first + 1) cs

/-- The constraints of a new table take their ids from one advance of the counter. -/
def newConstraintOps (es : RelStore) (tableId : Nat) (foreignKeys : List NewTableForeignKey)
    (checks : List NewTableCheck) : Option RelOps :=
  if foreignKeys.isEmpty ∧ checks.isEmpty then some []
  else do
    let (first, _) ← allocateId es .constraint
    let last := first + foreignKeys.length + checks.length - 1
    if last ≤ u32Max ∧
        foreignKeys.all fun fk => fk.parentTableId.all fun t =>
          (requireActiveTable es t).isSome then
      some ((newCheckRows tableId (first + foreignKeys.length) checks).map
          (fun c => (.constraint c.constraintId, some (.constraint c))) ++
        (newForeignKeyRows tableId first foreignKeys).map
          (fun fk => (.foreignKey fk.fkId, some (.foreignKey fk))) ++
        [(.counter .constraint, some (.number last))])
    else none

def createTableOps (es : RelStore) (name : String) (columns : List ColumnDef)
    (pkOrdinals : List Nat) (foreignKeys : List NewTableForeignKey) (checks : List NewTableCheck) :
    Option RelOps := do
  let (tableId, tableCounter) ← allocateId es .table
  let (indexId, indexCounter) ← allocateId es .index
  let shape ← (RubixDb.createTable tableId name columns pkOrdinals).toOption
  let pkIndex : IndexRow := ⟨indexId, tableId, name ++ "_pkey", .primary, pkOrdinals, .ready⟩
  let base : RelOps := [tableCounter, indexCounter, (.table tableId, some (.table shape)),
    (.index indexId, some (.index pkIndex))]
  let constraints ← newConstraintOps es tableId foreignKeys checks
  some (base ++ constraints)

def createIndexOps (es : RelStore) (tableId : Nat) (name : String) (kind : IndexKind)
    (columnOrdinals : List Nat) : Option RelOps := do
  let shape ← tableAt es (topSeq es) tableId
  if kind ≠ .primary ∧ columnOrdinals ≠ [] ∧ columnOrdinals.all (· < shape.columns.length) ∧
      (listIndexesAt es (topSeq es) tableId).all (fun i => i.name ≠ name) then
    let (id, counter) ← allocateId es .index
    some [counter, (.index id, some (.index ⟨id, tableId, name, kind, columnOrdinals, .building⟩))]
  else none

/-- `mark_index_dropping`. That it refuses an index a foreign key needs is an abort. -/
def markDroppingOps (es : RelStore) (index : IndexRow) : Option RelOps :=
  if index.kind = .primary then none
  else transitionIndexState es index.indexId [.building, .ready, .failed] .dropping

/-- The batch of a change, or nothing if the catalog does not allow it. -/
def ops (es : RelStore) (caches : Caches) : DdlJob → Option RelOps
  | .addCheck t name expression => addCheckOps es caches t name expression
  | .dropCheck check => dropCheckOps es caches check
  | .addForeignKey new => addForeignKeyOps es caches new
  | .dropForeignKey fk => dropForeignKeyOps es caches fk
  | .createTable name columns pkOrdinals foreignKeys checks =>
    createTableOps es name columns pkOrdinals foreignKeys checks
  | .createIndex t name kind columnOrdinals => createIndexOps es t name kind columnOrdinals
  | .markFailed indexId => transitionIndexState es indexId [.building] .failed
  | .markDropping index => markDroppingOps es index

def invalidations : DdlJob → List Invalidation
  | .addCheck _ _ _ => [.bumpChecks, .clearChecks]
  | .dropCheck _ => [.bumpChecks, .clearChecks]
  | .addForeignKey _ => [.bumpForeignKeys, .clearForeignKeys]
  | .dropForeignKey _ => [.bumpForeignKeys, .clearForeignKeys]
  | .createTable _ _ _ foreignKeys checks =>
    (if foreignKeys.isEmpty then [] else [.bumpForeignKeys, .clearForeignKeys]) ++
      (if checks.isEmpty then [] else [.bumpChecks, .clearChecks])
  | _ => []

end DdlJob

inductive DdlPhase where
  /-- The epoch locks held so far and those to come. -/
  | locking (held todo : List Nat)
  /-- The existing rows have been checked. -/
  | checked
  /-- `ddl_lock` is held too. -/
  | owning
  | logged
  | invalidating (todo : List Invalidation)

structure Ddl where
  job : DdlJob
  phase : DdlPhase

namespace Ddl

def start (job : DdlJob) : Ddl := ⟨job, .locking [] job.tables⟩

/-- The next step; the process is over when there is no next phase. -/
def next (eval : CheckEval) (seen : RelSeen) (d : Ddl) : Option (RelEffect × Caches × Option Ddl) :=
  match d.phase with
  | .locking held (t :: todo) =>
    some (.acquire (.epoch t) true, seen.shared, some { d with phase := .locking (t :: held) todo })
  | .locking _ [] =>
    if d.job.accepts eval seen.store then
      some (.quiet, seen.shared, some { d with phase := .checked })
    else some (.release, seen.shared, none)
  | .checked => some (.acquire .ddl true, seen.shared, some { d with phase := .owning })
  | .owning =>
    match d.job.ops seen.store seen.shared with
    | some ops => some (.submit ops, seen.shared, some { d with phase := .logged })
    | none => some (.release, seen.shared, none)
  | .logged =>
    some (.apply, seen.shared, some { d with phase := .invalidating d.job.invalidations })
  | .invalidating (i :: todo) =>
    some (.quiet, i.run seen.shared, some { d with phase := .invalidating todo })
  | .invalidating [] => some (.release, seen.shared, none)

/-- The change gives up: an error before the batch, or of `write_batch` after it. -/
def abort (seen : RelSeen) (d : Ddl) : Option (RelEffect × Caches × Option Ddl) :=
  match d.phase with
  | .logged => none
  | .invalidating todo =>
    if todo = d.job.invalidations then some (.release, seen.shared, none) else none
  | _ => some (.release, seen.shared, none)

end Ddl

end RubixDb
