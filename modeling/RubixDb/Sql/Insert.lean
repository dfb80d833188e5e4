import RubixDb.Relational.Cascade

/-!
# INSERT ... ON CONFLICT

`bind_on_conflict` of `sql/src/bind/dml.rs` and `execute_insert` of
`sql/src/exec/write.rs`. A statement is decided row by row against the transaction and
against what it has decided before, and writes nothing until every row is decided.

Expressions are functions of the rows they see. The rows a statement proposes are given;
`RETURNING` and the `CHECK` constraints can only make it fail, and are functions that say
whether they do.
-/

namespace RubixDb

open Lib

inductive SqlError where
  | txn (error : TxnError)
  | noMatchingTarget
  | unknownColumn (name : String)
  | duplicateTargetColumn (name : String)
  | unknownConstraint (name : String)
  | targetRequired
  | noAssignment
  | duplicateAssignment (name : String)
  | pkAssignment
  | notNull (name : String)
  | missingPkValue
  | duplicateKey
  | secondTime
  | tableGone
  | evaluation (detail : String)
deriving DecidableEq

/-! ## Binding -/

/-- What conflicts are looked for in: the primary key, or a unique index. -/
structure Arbiter where
  indexId : Option Nat
  ordinals : List Nat
deriving DecidableEq

inductive ConflictTarget where
  | columns (names : List String)
  | constraint (name : String)

/-- An expression over the existing and the proposed row. -/
structure ConflictExpr where
  isNullLiteral : Bool
  eval : Row → Row → Except SqlError (Option RelationalValue)

/-- What to do about a conflict, as written. A selection says whether its predicate is
true. -/
inductive ConflictAction where
  | doNothing
  | doUpdate (assignments : List (String × ConflictExpr))
      (selection : Option (Row → Row → Except SqlError Bool))

structure Assignment where
  ordinal : Nat
  value : ConflictExpr

inductive BoundAction where
  | doNothing
  | doUpdate (assignments : List Assignment)
      (selection : Option (Row → Row → Except SqlError Bool))

structure BoundOnConflict where
  arbiters : List Arbiter
  action : BoundAction

def pkArbiter (table : TableRow) : Arbiter := ⟨none, table.pkOrdinals⟩

def uniqueArbiter (index : IndexRow) : Arbiter := ⟨some index.indexId, index.columnOrdinals⟩

def readyUnique (index : IndexRow) : Bool := index.kind == .unique && index.state == .ready

/-- Both lists sorted are equal. -/
def sameColumns (a b : List Nat) : Bool := a.isPerm b

def targetOrdinals (columns : List ColumnRow) :
    List String → List Nat → Except SqlError (List Nat)
  | [], ordinals => .ok ordinals
  | name :: names, ordinals =>
    match columns.find? (·.name = name) with
    | none => .error (.unknownColumn name)
    | some column =>
      if column.ordinal ∈ ordinals then .error (.duplicateTargetColumn name)
      else targetOrdinals columns names (ordinals ++ [column.ordinal])

def bindArbiters (shape : TableShape) (indexes : List IndexRow) (target : Option ConflictTarget)
    (action : ConflictAction) : Except SqlError (List Arbiter) :=
  match target with
  | some (.columns names) => do
    let ordinals ← targetOrdinals shape.columns names []
    if sameColumns ordinals shape.table.pkOrdinals then .ok [pkArbiter shape.table]
    else
      match (indexes.filter readyUnique).find? fun i => sameColumns i.columnOrdinals ordinals with
      | some index => .ok [uniqueArbiter index]
      | none => .error .noMatchingTarget
  | some (.constraint name) =>
    match indexes.find? (·.name = name) with
    | none => .error (.unknownConstraint name)
    | some index =>
      match index.kind with
      | .primary => .ok [pkArbiter shape.table]
      | .unique =>
        if index.state = .ready then .ok [uniqueArbiter index] else .error .noMatchingTarget
      | .nonUnique => .error .noMatchingTarget
  | none =>
    match action with
    | .doUpdate _ _ => .error .targetRequired
    | .doNothing => .ok (pkArbiter shape.table :: (indexes.filter readyUnique).map uniqueArbiter)

def bindAssignments (shape : TableShape) :
    List (String × ConflictExpr) → List String → Except SqlError (List Assignment)
  | [], _ => .ok []
  | (name, value) :: rest, seen =>
    if name ∈ seen then .error (.duplicateAssignment name)
    else
      match shape.columns.find? (·.name = name) with
      | none => .error (.unknownColumn name)
      | some column =>
        if column.ordinal ∈ shape.table.pkOrdinals then .error .pkAssignment
        else if value.isNullLiteral ∧ ¬ column.nullable then .error (.notNull column.name)
        else do
          let assignments ← bindAssignments shape rest (name :: seen)
          .ok (⟨column.ordinal, value⟩ :: assignments)

def bindAction (shape : TableShape) : ConflictAction → Except SqlError BoundAction
  | .doNothing => .ok .doNothing
  | .doUpdate [] _ => .error .noAssignment
  | .doUpdate assignments selection => do
    let bound ← bindAssignments shape assignments []
    .ok (.doUpdate bound selection)

def bindOnConflict (shape : TableShape) (indexes : List IndexRow) (target : Option ConflictTarget)
    (action : ConflictAction) : Except SqlError BoundOnConflict := do
  let arbiters ← bindArbiters shape indexes target action
  let action ← bindAction shape action
  .ok ⟨arbiters, action⟩

/-! ## Keys of pending rows -/

/-- `GroupingValue`: a value up to the sign of zero and the bits of not-a-number. -/
def groupingValue : RelationalValue → RelationalValue
  | .real bits =>
    if f32IsNan bits then .real 0x7FC00000#32
    else if floatOrder bits = 0 then .real 0#32 else .real bits
  | .double bits =>
    if f64IsNan bits then .double 0x7FF8000000000000#64
    else if floatOrder bits = 0 then .double 0#64 else .double bits
  | v => v

abbrev GroupingKey := List RelationalValue

def pkKey (pk : List RelationalValue) : GroupingKey := pk.map groupingValue

/-- A row's key under a unique index, none when an indexed value is `NULL`. -/
def arbiterKey (row : Row) (ordinals : List Nat) : Option GroupingKey :=
  (tupleOf row ordinals).map fun vals => vals.map groupingValue

def pkValuesOf (row : Row) (pkOrdinals : List Nat) : Except SqlError (List RelationalValue) :=
  match tupleOf row pkOrdinals with
  | some pk => .ok pk
  | none => .error .missingPkValue

/-! ## What the statement has decided -/

/-- A row to write, and the row it replaces if it is an update. -/
structure PendingRow where
  row : Row
  old : Option Row
  write : Bool

/-- The maps go from a key to a position in `rows`. -/
structure Pending where
  rows : List PendingRow
  byPk : AList fun _ : GroupingKey => Nat
  byArbiter : List (AList fun _ : GroupingKey => Nat)

def Pending.new (arbiters : List Arbiter) : Pending := ⟨[], ∅, arbiters.map fun _ => ∅⟩

/-- One arbiter's map with the row added: only a unique index has one, and only a row
without `NULL`s is in it. -/
def addToArbiter (row : Row) (idx : Nat) (arbiter : Arbiter)
    (map : AList fun _ : GroupingKey => Nat) : AList fun _ : GroupingKey => Nat :=
  match arbiter.indexId, arbiterKey row arbiter.ordinals with
  | some _, some key => map.insert key idx
  | _, _ => map

def Pending.add (pending : Pending) (pk : List RelationalValue) (row : Row) (old : Option Row)
    (write : Bool) (arbiters : List Arbiter) : Pending :=
  let idx := pending.rows.length
  { rows := pending.rows ++ [⟨row, old, write⟩]
    byPk := pending.byPk.insert (pkKey pk) idx
    byArbiter := List.zipWith (addToArbiter row idx) arbiters pending.byArbiter }

/-! ## Conflicts -/

/-- A row of the statement, or one the transaction can see. -/
inductive Hit where
  | pending
  | committed (pk : List RelationalValue) (row : Row)

/-- The rows a transaction sees of a table, by key. -/
def Txn.visible (db : Db) (tx : Txn) (tableId : Nat) (key : Bytes) : Option Row :=
  match tx.ownOp tableId key with
  | some (.put row) => some row
  | some .delete => none
  | none => (db.snapshot tableId).lookup key

/-- The keys with a row the transaction sees. -/
def Txn.visibleKeys (db : Db) (tx : Txn) (tableId : Nat) : List Bytes :=
  (((db.snapshot tableId).keys ++ ((tx.writes.lookup tableId).getD ∅).keys).dedup).filter
    fun key => (tx.visible db tableId key).isSome

/-- The primary keys of the rows the transaction sees with `ordinals = vals`, in the
order of their keys. -/
def pksByColumns (db : Db) (tx : Txn) (table : TableRow) (ordinals : List Nat)
    (vals : List RelationalValue) : Except SqlError (List (List RelationalValue)) :=
  let keys := (tx.visibleKeys db table.tableId).insertionSort fun a b => (compare a b).isLE = true
  let rows := keys.filterMap (tx.visible db table.tableId)
  (rows.filter fun row => rowMatches row ordinals vals).mapM fun row =>
    pkValuesOf row table.pkOrdinals

def getRowSql (db : Db) (tx : Txn) (tableId : Nat) (pk : List RelationalValue) :
    Except SqlError (Option Row) :=
  match tx.getRow db tableId pk with
  | .ok row => .ok row
  | .error e => .error (.txn e)

/-- The first of the rows found that the statement has not moved away from the key. -/
def hitAmong (db : Db) (tx : Txn) (tableId : Nat) (pending : Pending) (ordinals : List Nat)
    (key : GroupingKey) : List (List RelationalValue) → Except SqlError (Option Hit)
  | [] => .ok none
  | pk :: pks =>
    match pending.byPk.lookup (pkKey pk) with
    | some i =>
      -- the statement already changed this row: it counts if it still holds the values
      if (pending.rows[i]?).bind (fun p => arbiterKey p.row ordinals) = some key then
        .ok (some .pending)
      else hitAmong db tx tableId pending ordinals key pks
    | none => do
      match ← getRowSql db tx tableId pk with
      | some row => .ok (some (.committed pk row))
      | none => hitAmong db tx tableId pending ordinals key pks

/-- The conflict of a proposed row under one arbiter; `map` is the arbiter's map. -/
def hitUnder (db : Db) (tx : Txn) (table : TableRow) (pending : Pending) (proposed : Row)
    (arbiter : Arbiter) (map : AList fun _ : GroupingKey => Nat) : Except SqlError (Option Hit) :=
  match arbiter.indexId with
  | none => do
    let pk ← pkValuesOf proposed table.pkOrdinals
    if (pending.byPk.lookup (pkKey pk)).isSome then .ok (some .pending)
    else
      match ← getRowSql db tx table.tableId pk with
      | some row => .ok (some (.committed pk row))
      | none => .ok none
  | some _ =>
    match tupleOf proposed arbiter.ordinals with
    | none => .ok none
    | some vals =>
      let key := vals.map groupingValue
      if (map.lookup key).isSome then .ok (some .pending)
      else do
        let pks ← pksByColumns db tx table arbiter.ordinals vals
        hitAmong db tx table.tableId pending arbiter.ordinals key pks

/-- The first conflict of a proposed row, the arbiters in order. -/
def findHit (db : Db) (tx : Txn) (table : TableRow) (pending : Pending) (proposed : Row) :
    List Arbiter → List (AList fun _ : GroupingKey => Nat) → Except SqlError (Option Hit)
  | arbiter :: arbiters, map :: maps => do
    match ← hitUnder db tx table pending proposed arbiter map with
    | some hit => .ok (some hit)
    | none => findHit db tx table pending proposed arbiters maps
  | _, _ => .ok none

/-! ## Deciding -/

structure InsertOutcome where
  inserted : Nat
  updated : Nat
  skipped : Nat
deriving DecidableEq

/-- An `INSERT` as it reaches execution. `returning` and `checks` fail or not. -/
structure Insert where
  tableId : Nat
  proposed : List Row
  onConflict : Option BoundOnConflict
  returning : Row → Except SqlError Unit
  checks : Txn → Nat → List Row → Except SqlError Unit

def checkNotNull : List ColumnRow → Row → Except SqlError Unit
  | [], _ => .ok ()
  | column :: columns, row =>
    if ¬ column.nullable ∧ (columnValue row column.ordinal).isNone then
      .error (.notNull column.name)
    else checkNotNull columns row

/-- The existing row with the assignments made; every expression sees the rows as they
were. -/
def assign (existing excluded : Row) : List Assignment → Row → Except SqlError Row
  | [], row => .ok row
  | a :: as, row => do
    let value ← a.value.eval existing excluded
    if a.ordinal < row.length then assign existing excluded as (row.set a.ordinal value)
    else .error (.txn .panicked)

/-- The `WHERE` of a `DO UPDATE`. -/
def isSelected (selection : Option (Row → Row → Except SqlError Bool)) (existing excluded : Row) :
    Except SqlError Bool :=
  match selection with
  | none => .ok true
  | some selection => selection existing excluded

/-- How far the statement has got. -/
structure Deciding where
  pending : Pending
  outcome : InsertOutcome

def Deciding.start (arbiters : List Arbiter) : Deciding := ⟨.new arbiters, ⟨0, 0, 0⟩⟩

/-- No conflict: a new row. -/
def Deciding.insert (d : Deciding) (ins : Insert) (table : TableRow) (arbiters : List Arbiter)
    (row : Row) : Except SqlError Deciding := do
  let pk ← pkValuesOf row table.pkOrdinals
  ins.returning row
  .ok ⟨d.pending.add pk row none true arbiters,
    { d.outcome with inserted := d.outcome.inserted + 1 }⟩

def Deciding.skip (d : Deciding) : Deciding :=
  { d with outcome := { d.outcome with skipped := d.outcome.skipped + 1 } }

/-- `DO UPDATE` of a row the transaction sees. -/
def Deciding.update (d : Deciding) (ins : Insert) (columns : List ColumnRow)
    (arbiters : List Arbiter) (assignments : List Assignment) (pk : List RelationalValue)
    (existing excluded : Row) : Except SqlError Deciding := do
  let row ← assign existing excluded assignments existing
  checkNotNull columns row
  ins.returning row
  .ok ⟨d.pending.add pk row (some existing) (!sameRow row existing) arbiters,
    { d.outcome with updated := d.outcome.updated + 1 }⟩

/-- One proposed row. -/
def decideRow (db : Db) (tx : Txn) (ins : Insert) (shape : TableShape) (arbiters : List Arbiter)
    (d : Deciding) (proposed : Row) : Except SqlError Deciding := do
  match ← findHit db tx shape.table d.pending proposed arbiters d.pending.byArbiter with
  | none => d.insert ins shape.table arbiters proposed
  | some hit =>
    match ins.onConflict with
    | none => .error .duplicateKey
    | some oc =>
      match oc.action, hit with
      | .doNothing, _ => .ok d.skip
      | .doUpdate _ _, .pending => .error .secondTime
      | .doUpdate assignments selection, .committed pk existing => do
        if ← isSelected selection existing proposed then
          d.update ins shape.columns arbiters assignments pk existing proposed
        else .ok d.skip

def decideRows (db : Db) (tx : Txn) (ins : Insert) (shape : TableShape) (arbiters : List Arbiter) :
    Deciding → List Row → Except SqlError Deciding
  | d, [] => .ok d
  | d, row :: rows => do
    let d ← decideRow db tx ins shape arbiters d row
    decideRows db tx ins shape arbiters d rows

/-! ## Execution -/

/-- Without a clause, the primary key alone. -/
def Insert.arbiters (ins : Insert) (table : TableRow) : List Arbiter :=
  match ins.onConflict with
  | some oc => oc.arbiters
  | none => [pkArbiter table]

abbrev SqlM := EStateM SqlError Txn

def liftSql {α : Type} : Except SqlError α → SqlM α
  | .ok a => pure a
  | .error e => throw e

/-- A call of the transaction from a statement. -/
def ofTxn {α : Type} (call : TxnM α) : SqlM α := fun tx =>
  match call tx with
  | .ok a tx => .ok a tx
  | .error e tx => .error (.txn e) tx

def putRows (db : Db) (tableId : Nat) : List Row → TxnM Unit
  | [] => pure ()
  | row :: rows => do
    putRow db tableId row
    putRows db tableId rows

def checkProposed (columns : List ColumnRow) : List Row → Except SqlError Unit
  | [] => .ok ()
  | row :: rows => do
    checkNotNull columns row
    checkProposed columns rows

/-- The constraints of the rows that referential actions wrote, table by table. -/
def checkCascaded (ins : Insert) (cascaded : List CascadedWrite) : List Nat → SqlM Unit
  | [] => pure ()
  | tableId :: tableIds => do
    let tx ← get
    liftSql (ins.checks tx tableId ((cascaded.filter (·.tableId = tableId)).map (·.row)))
    checkCascaded ins cascaded tableIds

/-- The decided rows that are to be written. -/
def Deciding.writes (d : Deciding) : List PendingRow := d.pending.rows.filter (·.write)

/-- The statement's own rows: decided, checked, and then written. -/
def insertRows (db : Db) (ins : Insert) (shape : TableShape) : SqlM Deciding := do
  let tx ← get
  let arbiters := ins.arbiters shape.table
  liftSql (checkProposed shape.columns ins.proposed)
  let d ← liftSql (decideRows db tx ins shape arbiters (.start arbiters) ins.proposed)
  liftSql (ins.checks tx ins.tableId (d.writes.map (·.row)))
  ofTxn (putRows db ins.tableId (d.writes.map (·.row)))
  pure d

/-- The table and the columns an `INSERT` goes to. -/
def targetShape (db : Db) (tableId : Nat) : Except SqlError TableShape :=
  match db.shape tableId with
  | some shape => .ok shape
  | none => .error .tableGone

def executeInsert (db : Db) (ins : Insert) : SqlM InsertOutcome := do
  let shape ← liftSql (targetShape db ins.tableId)
  let d ← insertRows db ins shape
  let changes := d.writes.map fun p => RowChange.mk p.old (some p.row)
  let cascaded ← ofTxn (enforceForeignKeys db ins.tableId changes)
  checkCascaded ins cascaded ((cascaded.map (·.tableId)).dedup.insertionSort (· ≤ ·))
  pure d.outcome

end RubixDb
