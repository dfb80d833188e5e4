import RubixDb.Relational.Txn

/-!
# Foreign keys of a transaction

`src/relational/txn/fk.rs` and the row lookups of `src/relational/lookup.rs` it is built
on. A statement's changes are checked against the transaction's own view and carry out
the referential actions; a commit checks its whole write-set against the latest rows.

A lookup returns the rows that hold given values in given columns. The source takes a
primary key, an index or a scan for it; here it is the scan, and the path only says
whether several values are looked up one by one or in one pass.
-/

namespace RubixDb

open Lib

/-! ## Values of columns -/

/-- The value of one column, absent when the row is too short. -/
def columnValue (row : Row) (ordinal : Nat) : Option RelationalValue := (row[ordinal]?).join

/-- The values of `ordinals`, or none if any is `NULL`. -/
def tupleOf (row : Row) (ordinals : List Nat) : Option (List RelationalValue) :=
  ordinals.mapM (columnValue row)

def sameTuple : List RelationalValue → List RelationalValue → Bool
  | [], [] => true
  | a :: as, b :: bs => a.same b && sameTuple as bs
  | _, _ => false

def sameField : Option RelationalValue → Option RelationalValue → Bool
  | none, none => true
  | some a, some b => a.same b
  | _, _ => false

/-- `==` of rows. -/
def sameRow : Row → Row → Bool
  | [], [] => true
  | a :: as, b :: bs => sameField a b && sameRow as bs
  | _, _ => false

def rowMatches (row : Row) : List Nat → List RelationalValue → Bool
  | o :: os, v :: vs =>
    (match columnValue row o with
      | some x => x.same v
      | none => false) && rowMatches row os vs
  | _, _ => true

/-! ## Lookups -/

inductive Access where
  | pkPoint
  | pkPrefix (len : Nat)
  | index (row : IndexRow)
  | scan

def Access.isNarrow : Access → Bool
  | .scan => false
  | _ => true

def sameSet (a b : List Nat) : Bool := a.all (· ∈ b) && b.all (· ∈ a)

def planAccess (db : Db) (table : TableRow) (ordinals : List Nat) : Access :=
  let pk := table.pkOrdinals
  if ordinals.dedup.length = pk.length ∧ sameSet ordinals pk then .pkPoint
  else if ordinals ≠ [] ∧ ordinals.length < pk.length ∧
    sameSet ordinals (pk.take ordinals.length) then
    .pkPrefix ordinals.length
  else
    match (db.indexes table.tableId).find? fun i =>
        i.state == .ready && i.columnOrdinals.length == ordinals.length &&
          sameSet i.columnOrdinals ordinals with
    | some i => .index i
    | none => .scan

/-- A found row with its primary key. -/
abbrev Found := List RelationalValue × Row

def pkOf (table : TableRow) (row : Row) : List RelationalValue :=
  (tupleOf row table.pkOrdinals).getD []

/-- The transaction's writes to a table, if it has any. -/
def Txn.own (tx : Txn) (tableId : Nat) : Option TableWrites :=
  (tx.writes.lookup tableId).filter fun w => !w.entries.isEmpty

/-- The rows a transaction buffered for a table that satisfy `p`. -/
def ownPuts (own : TableWrites) (p : Row → Bool) : List Found :=
  own.entries.filterMap fun e =>
    match e.2.2 with
    | .put row => if p row then some (e.2.1, row) else none
    | .delete => none

/-- Committed rows that satisfy `p`, up to a limit. -/
def findRows (view : View) (table : TableRow) (p : Row → Bool) (limit : Nat) :
    List (Bytes × Found) :=
  (((view table.tableId).entries.filter fun e => p e.2).take limit).map
    fun e => (e.1, (pkOf table e.2, e.2))

def findRowsInView (db : Db) (tx : Txn) (view : View) (tableId : Nat) (ordinals : List Nat)
    (values : List RelationalValue) (limit : Nat) : Except TxnError (List Found) := do
  let shape ← db.resolveTable tableId
  match tx.own tableId with
  | none => .ok ((findRows view shape.table (rowMatches · ordinals values) limit).map (·.2))
  | some own =>
    -- committed rows hidden by own writes must not use up the limit
    let found := findRows view shape.table (rowMatches · ordinals values)
      (limit + own.entries.length)
    let keep := (found.filter fun e => (own.lookup e.1).isNone).map (·.2)
    .ok ((keep ++ ownPuts own (rowMatches · ordinals values)).take limit)

def referencedExists (db : Db) (tx : Txn) (view : View) (fk : ForeignKeyRow)
    (key : List RelationalValue) : Except TxnError Bool := do
  let found ← findRowsInView db tx view fk.parentTableId fk.parentOrdinals key 1
  .ok !found.isEmpty

/-- The child rows of several keys, looked up one by one. -/
def childrenOfEach (db : Db) (tx : Txn) (view : View) (fk : ForeignKeyRow) (limit : Nat) :
    List (List RelationalValue) → List Found → Except TxnError (List Found)
  | [], out => .ok out
  | t :: ts, out => do
    let rows ← findRowsInView db tx view fk.tableId fk.childOrdinals t (limit - out.length)
    let out := out ++ rows
    if limit ≤ out.length then .ok out else childrenOfEach db tx view fk limit ts out

/-- Does a row's tuple encode to one of `wanted`? -/
def wantedTuple (fk : ForeignKeyRow) (wanted : List Bytes) (row : Row) : Except TxnError Bool :=
  match tupleOf row fk.childOrdinals with
  | none => .ok false
  | some t =>
    match encodeCompositeKey t with
    | .ok enc => .ok (enc ∈ wanted)
    | .error e => .error (.key e)

/-- The committed child rows, until there are `limit` of them. -/
def scanChildren (table : TableRow) (fk : ForeignKeyRow) (wanted : List Bytes) (own : TableWrites)
    (limit : Nat) : List (Sigma fun _ : Bytes => Row) → List Found → Except TxnError (List Found)
  | [], out => .ok out
  | e :: es, out =>
    if (own.lookup e.1).isSome then scanChildren table fk wanted own limit es out
    else do
      let hit ← wantedTuple fk wanted e.2
      let out := if hit then out ++ [(pkOf table e.2, e.2)] else out
      if out.length < limit then scanChildren table fk wanted own limit es out else .ok out

def ownChildren (fk : ForeignKeyRow) (wanted : List Bytes) :
    List (Sigma fun _ : Bytes => List RelationalValue × RowOp) → Except TxnError (List Found)
  | [] => .ok []
  | e :: es =>
    match e.2.2 with
    | .delete => ownChildren fk wanted es
    | .put row => do
      let hit ← wantedTuple fk wanted row
      let rest ← ownChildren fk wanted es
      .ok (if hit then (e.2.1, row) :: rest else rest)

/-- The child rows of several keys, in one pass over the table. -/
def childrenOfAll (db : Db) (tx : Txn) (view : View) (fk : ForeignKeyRow) (limit : Nat)
    (tuples : List (List RelationalValue)) : Except TxnError (List Found) := do
  let shape ← db.resolveTable fk.tableId
  match tuples.mapM encodeCompositeKey with
  | .error e => .error (.key e)
  | .ok wanted =>
    let own := (tx.own fk.tableId).getD ∅
    let base ← scanChildren shape.table fk wanted own limit (view fk.tableId).entries []
    if base.length < limit then
      let mine ← ownChildren fk wanted own.entries
      .ok ((base ++ mine).take limit)
    else .ok (base.take limit)

def childrenOf (db : Db) (tx : Txn) (view : View) (fk : ForeignKeyRow)
    (tuples : List (List RelationalValue)) (limit : Nat) : Except TxnError (List Found) := do
  let shape ← db.resolveTable fk.tableId
  if (planAccess db shape.table fk.childOrdinals).isNarrow || tuples.length ≤ 1 then
    childrenOfEach db tx view fk limit tuples []
  else childrenOfAll db tx view fk limit tuples

/-- Both tables of a key, as `plan_fk` resolves them. -/
def planFk (db : Db) (fk : ForeignKeyRow) : Except TxnError Unit := do
  let _ ← db.resolveTable fk.parentTableId
  let _ ← db.resolveTable fk.tableId
  .ok ()

/-! ## Commit-time validation -/

/-- The parent key a write vacates: the committed row had it, the written one does not. -/
def vacatedKey (fk : ForeignKeyRow) (oldRow : Row) (op : RowOp) :
    Option (List RelationalValue) := do
  let oldKey ← tupleOf oldRow fk.parentOrdinals
  let kept := match op with
    | .put row =>
      ((tupleOf row fk.parentOrdinals).map fun newKey => sameTuple newKey oldKey).getD false
    | .delete => false
  if kept then none else some oldKey

/-- Each written child row must have its parent. -/
def validateReferencing (db : Db) (tx : Txn) (fk : ForeignKeyRow) :
    List (Sigma fun _ : Bytes => List RelationalValue × RowOp) → Except TxnError Unit
  | [] => .ok ()
  | e :: es =>
    match e.2.2 with
    | .delete => validateReferencing db tx fk es
    | .put row =>
      match tupleOf row fk.childOrdinals with
      | none => validateReferencing db tx fk es
      | some key => do
        if ← referencedExists db tx db.latest fk key then validateReferencing db tx fk es
        else .error (.childViolation fk.name)

/-- The parent keys that the written rows vacate. The committed row is read at the
snapshot: the freshness check made sure that it is still the latest. -/
def vacatedKeys (db : Db) (table : TableRow) (fk : ForeignKeyRow) :
    List (Sigma fun _ : Bytes => List RelationalValue × RowOp) → List (List RelationalValue)
  | [] => []
  | e :: es =>
    match (fetchRowByEncodedPk db.snapshot table e.2.1 e.1).bind fun old =>
        vacatedKey fk old e.2.2 with
    | some key => key :: vacatedKeys db table fk es
    | none => vacatedKeys db table fk es

/-- Of those, the keys that no other row provides. -/
def goneKeys (db : Db) (tx : Txn) (fk : ForeignKeyRow) :
    List (List RelationalValue) → Except TxnError (List (List RelationalValue))
  | [] => .ok []
  | key :: keys => do
    let provided ← referencedExists db tx db.latest fk key
    let rest ← goneKeys db tx fk keys
    .ok (if provided then rest else key :: rest)

/-- A vacated parent key must not be referenced by a child that survives the commit. -/
def validateReferenced (db : Db) (tx : Txn) (fk : ForeignKeyRow) (parentWrites : TableWrites) :
    Except TxnError Unit := do
  let shape ← db.resolveTable fk.parentTableId
  let gone ← goneKeys db tx fk (vacatedKeys db shape.table fk parentWrites.entries)
  if gone = [] then .ok ()
  else
    let children ← childrenOf db tx db.latest fk gone 1
    if children.isEmpty then .ok () else .error (.parentViolation fk.name)

def validateForeignKey (db : Db) (tx : Txn) (fk : ForeignKeyRow) : Except TxnError Unit :=
  match tx.writes.lookup fk.tableId, tx.writes.lookup fk.parentTableId with
  | none, none => .ok ()
  | childWrites, parentWrites => do
    planFk db fk
    match childWrites with
    | some writes => validateReferencing db tx fk writes.entries
    | none => .ok ()
    match parentWrites with
    | some writes => validateReferenced db tx fk writes
    | none => .ok ()

/-- The foreign keys are the list `foreign_keys()` returned. -/
def validateForeignKeys (db : Db) (tx : Txn) : List ForeignKeyRow → Except TxnError Unit
  | [] => .ok ()
  | fk :: fks => do
    validateForeignKey db tx fk
    validateForeignKeys db tx fks

end RubixDb
