import RubixDb.Proof.SchemaGrowth
import RubixDb.Sql.Insert

/-!
# What a transaction's calls do to what it sees

One specification for each call: a row that is put is seen at its key, and nothing else
changes. `Txn.Keyed` is the invariant the calls keep (`keyed_of_underway`): a buffered row
stands at the key its own values encode to.
-/

namespace RubixDb.Proof

open Lib List

variable {db : Db} {tableId : Nat} {key k : Bytes} {pk : List RelationalValue} {tx tx' : Txn}
    {row : Row}

/-! ## Calls -/

variable {shape : TableShape} {op : RowOp} {u : Unit} {t : Nat} {os : List Nat}

/-- A callee that does not touch the transaction. -/
theorem liftTxn_bind_eq_ok {ε α β : Type} {wrap : ε → TxnError} {x : Except ε α} {f : α → TxnM β}
    {s u : Txn} {b : β} :
    (liftTxn wrap x >>= f) s = .ok b u ↔ ∃ a, x = .ok a ∧ f a s = .ok b u := by
  constructor
  · intro h
    cases x with
    | error e => cases h
    | ok a => exact ⟨a, rfl, h⟩
  · rintro ⟨a, rfl, h⟩
    exact h

theorem resolveTable_eq_ok :
    db.resolveTable tableId = .ok shape ↔ db.shape tableId = some shape := by
  rw [Db.resolveTable]
  cases db.shape tableId with
  | none => constructor <;> intro h <;> cases h
  | some s => simp

/-- A write buffered for `key` of `tableId`. -/
def Txn.recorded (tx : Txn) (tableId : Nat) (key : Bytes) (pk : List RelationalValue) (op : RowOp) :
    WriteSet :=
  tx.writes.insert tableId (((tx.writes.lookup tableId).getD ∅).insert key (pk, op))

theorem recordOp_ok {n : Nat} (h : recordOp db tableId key pk op n tx = .ok u tx') :
    tx'.writes = Txn.recorded tx tableId key pk op := by
  rw [recordOp, estate_get_bind, estate_set_bind] at h
  split at h
  · cases h
  · split at h
    · cases h
    · rw [← (EStateM.Result.ok.inj h).2]
      rfl

/-- What a successful `put_row` checked and wrote. -/
structure PutSpec (db : Db) (tableId : Nat) (row : Row) (shape : TableShape)
    (pk : List RelationalValue) (key : Bytes) : Prop where
  resolved : db.shape tableId = some shape
  valid : validateRowShape shape.table shape.columns row = .ok ()
  extracted : extractPkValues shape.table row = .ok pk
  encoded : encodeCompositeKey pk = .ok key

theorem putRow_ok (h : putRow db tableId row tx = .ok u tx') :
    ∃ shape pk key, PutSpec db tableId row shape pk key ∧
      tx'.writes = Txn.recorded tx tableId key pk (.put row) := by
  obtain ⟨shape, hshape, h⟩ := liftTxn_bind_eq_ok.mp h
  obtain ⟨_, hvalid, h⟩ := liftTxn_bind_eq_ok.mp h
  obtain ⟨pk, hpk, h⟩ := liftTxn_bind_eq_ok.mp h
  obtain ⟨key, hkey, h⟩ := liftTxn_bind_eq_ok.mp h
  refine ⟨shape, pk, key, ⟨resolveTable_eq_ok.mp hshape, hvalid, hpk, hkey⟩, ?_⟩
  rw [recordOp_ok h]
  -- recording the table's version leaves the writes alone
  have hwrites : (if (tx.tableVersions.lookup tableId).isSome then tx
      else { tx with
        tableVersions := tx.tableVersions.insert tableId shape.table.schemaVersion }).writes
        = tx.writes := by
    split <;> rfl
  rw [Txn.recorded, hwrites]
  rfl

/-! ## What is seen -/

theorem ownOp_of_recorded (h : tx'.writes = Txn.recorded tx tableId key pk op) :
    tx'.ownOp t k = if t = tableId ∧ k = key then some op else tx.ownOp t k := by
  rw [Txn.ownOp, Txn.ownOp, h, Txn.recorded]
  by_cases ht : t = tableId
  · subst ht
    rw [AList.lookup_insert]
    by_cases hk : k = key
    · subst hk
      simp [AList.lookup_insert]
    · rw [if_neg (fun h => hk h.2)]
      simp only [bind, Option.bind_some, AList.lookup_insert_ne hk]
      cases hw : tx.writes.lookup t with
      | none => rfl
      | some w => rfl
  · rw [if_neg (fun h => ht h.1), AList.lookup_insert_ne ht]

/-- **A row that is put is seen at its key**, and the rest is as before. -/
theorem visible_of_put (h : tx'.writes = Txn.recorded tx tableId key pk (.put row)) :
    tx'.visible db t k = if t = tableId ∧ k = key then some row else tx.visible db t k := by
  rw [Txn.visible, ownOp_of_recorded h, Txn.visible]
  by_cases hk : t = tableId ∧ k = key
  · rw [if_pos hk, if_pos hk]
  · rw [if_neg hk, if_neg hk]

theorem mem_visibleKeys : k ∈ tx.visibleKeys db tableId ↔ (tx.visible db tableId k).isSome := by
  rw [Txn.visibleKeys, mem_filter, mem_dedup, mem_append]
  constructor
  · exact fun h => h.2
  · intro h
    refine ⟨?_, h⟩
    rw [Txn.visible] at h
    cases hop : tx.ownOp tableId k with
    | none =>
      rw [hop] at h
      exact .inl (AList.lookup_isSome.mp h)
    | some op =>
      right
      obtain ⟨w, hw, hop⟩ := Option.bind_eq_some_iff.mp hop
      obtain ⟨⟨_, _⟩, hk, -⟩ := Option.bind_eq_some_iff.mp hop
      rw [hw]
      exact AList.lookup_isSome.mp (by rw [Option.getD_some, hk]; rfl)

theorem nodup_visibleKeys (db : Db) (tx : Txn) (tableId : Nat) :
    (tx.visibleKeys db tableId).Nodup :=
  (nodup_dedup _).filter _

/-! ## Key columns -/

/-- The two ways the source takes a key out of a row. -/
theorem extractPkValues_eq_ok {table : TableRow} :
    extractPkValues table row = .ok pk ↔ tupleOf row table.pkOrdinals = some pk := by
  rw [extractPkValues, tupleOf]
  induction table.pkOrdinals generalizing pk with
  | nil => simp [pure, Except.pure]
  | cons o os ih =>
    rw [mapM_cons, mapM_cons, columnValue]
    rcases row[o]? with _ | _ | v
    · constructor <;> intro h <;> cases h
    · constructor <;> intro h <;> cases h
    · rw [ok_bind, bind_eq_ok, Option.join_some, Option.bind_eq_bind, Option.bind_some,
        Option.bind_eq_bind, Option.bind_eq_some_iff]
      apply exists_congr
      intro vs
      rw [ih]
      apply and_congr Iff.rfl
      constructor
      · intro h; exact congrArg some (Except.ok.inj h)
      · intro h; exact congrArg Except.ok (Option.some.inj h)

/-- A tuple is the values of the columns, none of them `NULL`. -/
theorem tupleOf_eq_some_iff {vals : List RelationalValue} :
    tupleOf row os = some vals ↔ os.map (columnValue row) = vals.map some := by
  induction os generalizing vals with
  | nil => cases vals <;> simp [tupleOf]
  | cons o os ih =>
    rw [tupleOf, mapM_cons, map_cons]
    cases columnValue row o with
    | none => cases vals <;> simp
    | some v =>
      rw [tupleOf] at ih
      cases vals with
      | nil => simp [Option.bind_eq_some_iff]
      | cons w ws => simp [Option.bind_eq_some_iff, ih, and_comm]

theorem getElem?_withColumns {vs : List (Option RelationalValue)} {i : Nat}
    (hi : i ∉ os) : (withColumns row os vs)[i]? = row[i]? := by
  induction os generalizing row vs with
  | nil => cases vs <;> rfl
  | cons o os ih =>
    cases vs with
    | nil => rfl
    | cons v vs =>
      rw [mem_cons, not_or] at hi
      rw [withColumns, ih hi.2, getElem?_set_ne (Ne.symm hi.1)]

/-- Columns that were set are read back. -/
theorem tupleOf_withColumns {vs : List RelationalValue} (hnodup : os.Nodup)
    (hwide : ∀ o ∈ os, o < row.length) (hlen : vs.length = os.length) :
    tupleOf (withColumns row os (vs.map some)) os = some vs := by
  induction os generalizing row vs with
  | nil =>
    obtain rfl := eq_nil_of_length_eq_zero hlen
    rfl
  | cons o os ih =>
    cases vs with
    | nil => cases hlen
    | cons v vs =>
      obtain ⟨ho, hnodup⟩ := nodup_cons.mp hnodup
      have hset : (row.set o (some v)).length = row.length := length_set
      have hrest := @ih (row.set o (some v)) vs hnodup
        (by rw [hset]; exact fun o' h => hwide o' (mem_cons_of_mem _ h))
        (by simpa using hlen)
      have hfirst : columnValue (withColumns row (o :: os) ((v :: vs).map some)) o = some v := by
        rw [columnValue, map_cons, withColumns, getElem?_withColumns ho,
          getElem?_set_self (hwide o (by simp))]
        rfl
      rw [tupleOf, mapM_cons, hfirst, Option.bind_eq_bind]
      rw [tupleOf] at hrest
      rw [map_cons, withColumns, hrest]
      rfl

/-! ## Reads -/

/-- A buffered row stands at the key of its own values. -/
def Txn.Keyed (db : Db) (tx : Txn) : Prop :=
  ∀ t k row shape, tx.ownOp t k = some (.put row) → db.shape t = some shape →
    ∃ pk, tupleOf row shape.table.pkOrdinals = some pk ∧ encodeCompositeKey pk = .ok k

theorem keyed_begin (db : Db) : Txn.Keyed db .begin := by
  intro t k row shape h
  cases h

/-- What the catalog and the storage promise of a table's committed rows. -/
structure Db.TableOk (db : Db) (tableId : Nat) (shape : TableShape) : Prop where
  resolved : db.shape tableId = some shape
  id : shape.table.tableId = tableId
  pkNodup : shape.table.pkOrdinals.Nodup
  pkColumns : ∀ o ∈ shape.table.pkOrdinals, ∃ c ∈ shape.columns, c.ordinal = o
  wide : ∀ k row, (db.snapshot tableId).lookup k = some row →
    ∀ o ∈ shape.table.pkOrdinals, o < row.length

/-- **A point read is a look at the key**, and the row it finds has that key. -/
theorem getRow_ok {r : Option Row} (hok : Db.TableOk db tableId shape) (hkeyed : Txn.Keyed db tx)
    (h : tx.getRow db tableId pk = .ok r) :
    ∃ key, encodeCompositeKey pk = .ok key ∧ r.isSome = (tx.visible db tableId key).isSome ∧
      ∀ row, r = some row → ∃ pk', tupleOf row shape.table.pkOrdinals = some pk' ∧
        encodeCompositeKey pk' = .ok key := by
  obtain ⟨shape', hshape, h⟩ := bind_eq_ok.mp h
  rw [resolveTable_eq_ok, hok.resolved] at hshape
  cases hshape
  split at h
  · cases h
  rename_i hlen
  split at h
  · cases h
  rename_i key hkey
  refine ⟨key, hkey, ?_⟩
  split at h
  · rename_i row hop
    cases h
    rw [Txn.visible, hop]
    refine ⟨rfl, ?_⟩
    intro row' hrow
    cases hrow
    exact hkeyed tableId key row shape hop hok.resolved
  · rename_i hop
    cases h
    rw [Txn.visible, hop]
    exact ⟨rfl, fun _ hrow => by cases hrow⟩
  · rename_i hop
    cases h
    rw [Txn.visible, hop, fetchRowByEncodedPk, hok.id]
    refine ⟨by simp, ?_⟩
    intro row hrow
    obtain ⟨stored, hstored, rfl⟩ := Option.map_eq_some_iff.mp hrow
    exact ⟨pk, tupleOf_withColumns hok.pkNodup (hok.wide key stored hstored) (by simpa using hlen),
      hkey⟩

end RubixDb.Proof
