import RubixDb.Relational.ForeignKey

/-!
# Referential actions

`Transaction::enforce_foreign_keys` of `src/relational/txn/fk.rs`: after a statement has
buffered its row changes, every changed child row must have its parent, and every parent
key that went away or moved is dealt with as its foreign keys say. The rows written that
way are changes in turn, up to a fixed depth.
-/

namespace RubixDb

open Lib

/-- One row a statement changed: no `old` is an insert, no `new` a delete. -/
structure RowChange where
  old : Option Row
  new : Option Row

/-- A child row that the enforcement itself wrote. -/
structure CascadedWrite where
  tableId : Nat
  row : Row

def maxCascadeDepth : Nat := 32

/-! ## Rewriting rows -/

/-- The first pass of `apply_row_updates`: rows that keep their key are written, the
others are returned. -/
def putUnmoved (db : Db) (tableId : Nat) (shape : TableShape) :
    List (Row × Row) → TxnM (List (List RelationalValue × Row))
  | [] => pure []
  | (old, new) :: rest => do
    liftTxn .relational (validateRowShape shape.table shape.columns new)
    let oldPk ← liftTxn .relational (extractPkValues shape.table old)
    let newPk ← liftTxn .relational (extractPkValues shape.table new)
    if sameTuple oldPk newPk then do
      putRow db tableId new
      putUnmoved db tableId shape rest
    else do
      let moved ← putUnmoved db tableId shape rest
      pure ((oldPk, new) :: moved)

def putMoved (db : Db) (tableId : Nat) (shape : TableShape) :
    List (List RelationalValue × Row) → TxnM Unit
  | [] => pure ()
  | (_, new) :: rest => do
    let newPk ← liftTxn .relational (extractPkValues shape.table new)
    let tx ← get
    let taken ← liftTxn id (tx.getRow db tableId newPk)
    if taken.isSome then throw .duplicateKey
    putRow db tableId new
    putMoved db tableId shape rest

def deleteRows (db : Db) (tableId : Nat) : List (List RelationalValue) → TxnM Unit
  | [] => pure ()
  | pk :: pks => do
    deleteRow db tableId pk
    deleteRows db tableId pks

/-- Rows that change their key are all removed before any is inserted. -/
def applyRowUpdates (db : Db) (tableId : Nat) (updates : List (Row × Row)) : TxnM Unit := do
  let shape ← liftTxn id (db.resolveTable tableId)
  let moved ← putUnmoved db tableId shape updates
  deleteRows db tableId (moved.map (·.1))
  putMoved db tableId shape moved

/-! ## Changed rows and their keys -/

/-- An inserted row, or an updated one whose referencing columns changed, must have its
parent, at the snapshot or now. -/
def checkReferencing (db : Db) (fk : ForeignKeyRow) : List RowChange → TxnM Unit
  | [] => pure ()
  | change :: changes => do
    let key := change.new.bind (tupleOf · fk.childOrdinals)
    match key with
    | none => checkReferencing db fk changes
    | some key =>
      let same := ((change.old.bind (tupleOf · fk.childOrdinals)).map
        fun oldKey => sameTuple oldKey key).getD false
      if same then checkReferencing db fk changes
      else do
        let tx ← get
        let atSnapshot ← liftTxn id (referencedExists db tx db.snapshot fk key)
        if atSnapshot then checkReferencing db fk changes
        else do
          let now ← liftTxn id (referencedExists db tx db.latest fk key)
          if now then checkReferencing db fk changes else throw (.childViolation fk.name)

/-- An old parent key and what it became: no values when the row is gone. -/
abbrev MovedKey := List RelationalValue × Option (List (Option RelationalValue))

def movedKey (fk : ForeignKeyRow) (change : RowChange) : Option MovedKey := do
  let old ← change.old
  let oldKey ← tupleOf old fk.parentOrdinals
  match change.new with
  | none => some (oldKey, none)
  | some new =>
    let kept :=
      ((tupleOf new fk.parentOrdinals).map fun newKey => sameTuple newKey oldKey).getD false
    if kept then none else some (oldKey, some (fk.parentOrdinals.map (columnValue new)))

/-- The deleted keys that another row now provides. -/
def providedKeys (db : Db) (tx : Txn) (fk : ForeignKeyRow) :
    List MovedKey → Except TxnError (List Bytes)
  | [] => .ok []
  | (key, new) :: moved => do
    let provided ← if new.isNone then referencedExists db tx db.snapshot fk key else .ok false
    if provided then
      match encodeCompositeKey key with
      | .error e => .error (.key e)
      | .ok enc => do
        let rest ← providedKeys db tx fk moved
        .ok (enc :: rest)
    else providedKeys db tx fk moved

/-- The moved keys by encoding, added to `acc`; for one that occurs twice the last counts. -/
def movedByKey : List MovedKey → (AList fun _ : Bytes => MovedKey) →
    Except TxnError (AList fun _ : Bytes => MovedKey)
  | [], acc => .ok acc
  | m :: ms, acc =>
    match encodeCompositeKey m.1 with
    | .error e => .error (.key e)
    | .ok enc => movedByKey ms (acc.insert enc m)

def defaultsOf (columns : List ColumnRow) (ordinals : List Nat) :
    Except TxnError (List (Option RelationalValue)) :=
  ordinals.mapM fun o =>
    match columns.find? (·.ordinal = o) with
    | none => .error (.columnGone o)
    | some column =>
      match column.defaultValue with
      | none => .ok none
      | some bytes =>
        match decodeLiteral column bytes with
        | .ok v => .ok v
        | .error e => .error (.relational e)

/-! ## Actions -/

/-- What is to happen to one child row: nothing, its deletion or its rewriting. -/
inductive ChildAction where
  | keep
  | delete (pk : List RelationalValue) (row : Row)
  | update (old new : Row)

def childAction (db : Db) (tx : Txn) (fk : ForeignKeyRow) (columns : List ColumnRow)
    (provided : List Bytes) (newFor : AList fun _ : Bytes => MovedKey) (child : Found) :
    Except TxnError ChildAction :=
  match tupleOf child.2 fk.childOrdinals with
  | none => .ok .keep
  | some childKey =>
    match encodeCompositeKey childKey with
    | .error e => .error (.key e)
    | .ok enc =>
      if provided.contains enc then .ok .keep
      else
        match newFor.lookup enc with
        | none => .ok .keep
        | some (_, newValues) =>
          match newValues, (if newValues.isNone then fk.onDelete else fk.onUpdate) with
          | none, .noAction | none, .restrict => .error (.parentViolation fk.name)
          | some _, .noAction | some _, .restrict => do
            -- an updated key that another row now provides is fine
            let provided ← referencedExists db tx db.snapshot fk childKey
            if provided then .ok .keep else .error (.parentViolation fk.name)
          | none, .cascade => .ok (.delete child.1 child.2)
          | some values, .cascade =>
            .ok (.update child.2 (withColumns child.2 fk.childOrdinals values))
          | _, .setNull =>
            .ok (.update child.2 (withColumns child.2 fk.childOrdinals
              (fk.childOrdinals.map fun _ => none)))
          | _, .setDefault => do
            let defaults ← defaultsOf columns fk.childOrdinals
            .ok (.update child.2 (withColumns child.2 fk.childOrdinals defaults))

def childActions (db : Db) (tx : Txn) (fk : ForeignKeyRow) (columns : List ColumnRow)
    (provided : List Bytes) (newFor : AList fun _ : Bytes => MovedKey) :
    List Found → Except TxnError (List ChildAction)
  | [] => .ok []
  | child :: children => do
    let action ← childAction db tx fk columns provided newFor child
    let actions ← childActions db tx fk columns provided newFor children
    .ok (action :: actions)

def deletesOf : List ChildAction → List Found
  | [] => []
  | .delete pk row :: rest => (pk, row) :: deletesOf rest
  | _ :: rest => deletesOf rest

/-- The rewritten rows, those that do not change left out. -/
def updatesOf : List ChildAction → List (Row × Row)
  | [] => []
  | .update old new :: rest =>
    if sameRow old new then updatesOf rest else (old, new) :: updatesOf rest
  | _ :: rest => updatesOf rest

/-- One foreign key's part in step 2: the children of the keys that went away or moved.
`next` is the enforcement of the changes that follow. -/
def enforceReferenced (db : Db) (next : Nat → List RowChange → TxnM (List CascadedWrite))
    (fk : ForeignKeyRow) (changes : List RowChange) : TxnM (List CascadedWrite) := do
  let moved := changes.filterMap (movedKey fk)
  if moved.isEmpty then pure []
  else do
    liftTxn id (planFk db fk)
    let tx ← get
    let children ← liftTxn id (childrenOf db tx db.snapshot fk (moved.map (·.1))
      (db.limits.maxWriteSetOps + 1))
    if children.isEmpty then pure []
    else do
      let provided ← liftTxn id (providedKeys db tx fk moved)
      let newFor ← liftTxn id (movedByKey moved ∅)
      let shape ← liftTxn id (db.resolveTable fk.tableId)
      let actions ← liftTxn id (childActions db tx fk shape.columns provided newFor children)
      let deletes := deletesOf actions
      let updates := updatesOf actions
      deleteRows db fk.tableId (deletes.map (·.1))
      if !updates.isEmpty then applyRowUpdates db fk.tableId updates
      let childChanges := deletes.map (fun d => RowChange.mk (some d.2) none) ++
        updates.map (fun u => RowChange.mk (some u.1) (some u.2))
      let written := updates.map fun u => CascadedWrite.mk fk.tableId u.2
      if childChanges.isEmpty then pure written
      else do
        let further ← next fk.tableId childChanges
        pure (written ++ further)

def checkAllReferencing (db : Db) (changes : List RowChange) : List ForeignKeyRow → TxnM Unit
  | [] => pure ()
  | fk :: fks => do
    liftTxn id (planFk db fk)
    checkReferencing db fk changes
    checkAllReferencing db changes fks

def enforceAllReferenced (db : Db) (next : Nat → List RowChange → TxnM (List CascadedWrite))
    (changes : List RowChange) : List ForeignKeyRow → TxnM (List CascadedWrite)
  | [] => pure []
  | fk :: fks => do
    let written ← enforceReferenced db next fk changes
    let rest ← enforceAllReferenced db next changes fks
    pure (written ++ rest)

/-- `enforce_inner`, the first argument counting the levels that are left. -/
def enforceInner (db : Db) : Nat → Nat → List RowChange → TxnM (List CascadedWrite)
  | 0, _, _ => throw .cascadeDepth
  | levels + 1, tableId, changes => do
    checkAllReferencing db changes (db.foreignKeys.filter (·.tableId = tableId))
    enforceAllReferenced db (enforceInner db levels) changes
      (db.foreignKeys.filter (·.parentTableId = tableId))

def enforceForeignKeys (db : Db) (tableId : Nat) (changes : List RowChange) :
    TxnM (List CascadedWrite) :=
  if db.foreignKeys.isEmpty then pure [] else enforceInner db (maxCascadeDepth + 1) tableId changes

end RubixDb
