import RubixDb.Lib.Stateful
import RubixDb.Proof.TxnOps
import RubixDb.Relational.Calls

/-!
# Rolling back to a savepoint

A savepoint remembers how long the journal was; rolling back undoes what is behind that,
entry by entry from the end. `Follows` says what the calls after a savepoint leave to be
undone: the journal has grown by entries that take the write-set back.

What a rollback does not restore are the schema versions that were recorded in between,
and the empty maps of tables for which an earlier call failed; both can be told from
outside by a commit. The order in which a map lists its entries is not part of a
transaction's state (the source's maps have none), so two transactions are compared by
what their maps hold.
-/

namespace RubixDb.Proof

open Lib

/-! ## The write-set by key -/

variable {tx a b : Txn}

/-- What is buffered for one key. -/
def opAt (writes : WriteSet) (t : Nat) (pk : Bytes) : Option (List RelationalValue × RowOp) :=
  (writes.lookup t).bind (·.lookup pk)

theorem opAt_insert (writes : WriteSet) (t : Nat) (w : TableWrites) (t' : Nat) (pk : Bytes) :
    opAt (writes.insert t w) t' pk = if t' = t then w.lookup pk else opAt writes t' pk := by
  rw [opAt]
  by_cases h : t' = t
  · rw [if_pos h, h, AList.lookup_insert]
    rfl
  · rw [if_neg h, AList.lookup_insert_ne h, opAt]

theorem lookup_getD (writes : WriteSet) (t : Nat) (pk : Bytes) :
    ((writes.lookup t).getD ∅).lookup pk = opAt writes t pk := by
  rw [opAt]
  cases writes.lookup t with
  | none => rfl
  | some w => rfl

theorem opAt_restoreEntry (writes : WriteSet) (e : JournalEntry) (t : Nat) (pk : Bytes) :
    opAt (restoreEntry writes e) t pk =
      if t = e.tableId ∧ pk = e.encodedPk then e.previous else opAt writes t pk := by
  rw [restoreEntry, opAt_insert]
  by_cases ht : t = e.tableId
  · subst ht
    rw [if_pos rfl]
    by_cases hpk : pk = e.encodedPk
    · subst hpk
      rw [if_pos ⟨rfl, rfl⟩]
      cases e.previous with
      | none => exact AList.lookup_erase _ _
      | some p => exact AList.lookup_insert _
    · rw [if_neg fun h => hpk h.2, ← lookup_getD]
      cases e.previous with
      | none => exact AList.lookup_erase_ne hpk
      | some p => exact AList.lookup_insert_ne hpk
  · rw [if_neg ht, if_neg fun h => ht h.1]

/-- The entries are undone from the end. -/
def undo (entries : List JournalEntry) (writes : WriteSet) : WriteSet :=
  entries.reverse.foldl restoreEntry writes

theorem undo_append (xs ys : List JournalEntry) (writes : WriteSet) :
    undo (xs ++ ys) writes = undo xs (undo ys writes) := by
  rw [undo, undo, undo, List.reverse_append, List.foldl_append]

theorem opAt_undo_congr {entries : List JournalEntry} : ∀ {v w : WriteSet},
    (∀ t pk, opAt v t pk = opAt w t pk) →
    ∀ t pk, opAt (undo entries v) t pk = opAt (undo entries w) t pk := by
  induction entries using List.reverseRecOn with
  | nil => intro v w h; exact h
  | append_singleton entries e ih =>
    intro v w h
    rw [undo_append, undo_append]
    refine ih fun t pk => ?_
    show opAt (restoreEntry v e) t pk = opAt (restoreEntry w e) t pk
    rw [opAt_restoreEntry, opAt_restoreEntry, h t pk]

/-! ## Overlays -/

/-- A cached overlay that is still current is the one that would be built now. -/
def Txn.Sound (tx : Txn) : Prop :=
  ∀ t version overlay, tx.overlayCache.lookup t = some (version, overlay) →
    version ≤ tx.writeVersion ∧
      (version = tx.writeVersion →
        ∀ w, tx.writes.lookup t = some w → w.entries ≠ [] → overlay = overlayOf w)

theorem sound_begin : Txn.Sound Txn.begin := by
  intro t version overlay h
  cases h

/-- Nothing in the cache is current after a write. -/
theorem sound_of_version_lt {tx' : Txn} (h : Txn.Sound tx)
    (hcache : tx'.overlayCache = tx.overlayCache) (hlt : tx.writeVersion < tx'.writeVersion) :
    Txn.Sound tx' := by
  intro t version overlay hl
  rw [hcache] at hl
  have hle := (h t version overlay hl).1
  exact ⟨by omega, fun heq => by omega⟩

theorem overlayFor_eq (h : Txn.Sound tx) (t : Nat) :
    (tx.overlayFor t).1 = (tx.own t).map overlayOf := by
  rw [Txn.overlayFor, Txn.own]
  cases hw : tx.writes.lookup t with
  | none => rfl
  | some w =>
    simp only []
    by_cases hempty : w.entries = []
    · simp [hempty]
    · have hfull : w.entries.isEmpty = false := by simpa using hempty
      rw [hfull, Option.filter_some_pos (by rw [hfull]; rfl)]
      cases hc : (tx.overlayCache.lookup t).filter fun c => c.1 = tx.writeVersion with
      | none => rfl
      | some c =>
        obtain ⟨version, overlay⟩ := c
        obtain ⟨hl, hv⟩ := Option.filter_eq_some_iff.mp hc
        have hv : version = tx.writeVersion := by simpa using hv
        exact congrArg some ((h t version overlay hl).2 hv w hw hempty)

theorem overlayFor_fields (tx : Txn) (t : Nat) :
    (tx.overlayFor t).2.writes = tx.writes ∧ (tx.overlayFor t).2.opCount = tx.opCount ∧
      (tx.overlayFor t).2.byteCount = tx.byteCount ∧
      (tx.overlayFor t).2.tableVersions = tx.tableVersions ∧
      (tx.overlayFor t).2.journal = tx.journal ∧
      (tx.overlayFor t).2.writeVersion = tx.writeVersion := by
  rw [Txn.overlayFor]
  split
  · exact ⟨rfl, rfl, rfl, rfl, rfl, rfl⟩
  · split
    · exact ⟨rfl, rfl, rfl, rfl, rfl, rfl⟩
    · split <;> exact ⟨rfl, rfl, rfl, rfl, rfl, rfl⟩

theorem sound_overlayFor (h : Txn.Sound tx) (t : Nat) : Txn.Sound (tx.overlayFor t).2 := by
  rw [Txn.overlayFor]
  split
  · exact h
  · rename_i w hw
    split
    · exact h
    · split
      · exact h
      · intro t' version overlay hl
        by_cases ht : t' = t
        · subst ht
          rw [AList.lookup_insert] at hl
          obtain ⟨rfl, rfl⟩ := Prod.mk.inj (Option.some.inj hl)
          refine ⟨Nat.le_refl _, fun _ w' hw' _ => ?_⟩
          rw [Option.some.inj (hw.symm.trans hw')]
        · rw [AList.lookup_insert_ne ht] at hl
          exact h t' version overlay hl

/-! ## What is left to be undone -/

/-- How `b` comes after `a`. When a savepoint is open in `a`, the journal has grown by
entries that take the write-set back to `a`'s. -/
structure Follows (a b : Txn) : Prop where
  undone : ∀ j, a.journal = some j → ∃ more, b.journal = some (j ++ more) ∧
    ∀ t pk, opAt (undo more b.writes) t pk = opAt a.writes t pk
  versions : ∀ t v, a.tableVersions.lookup t = some v → b.tableVersions.lookup t = some v
  sound : Txn.Sound a → Txn.Sound b

theorem Follows.refl (a : Txn) : Follows a a where
  undone j h := ⟨[], by rw [h, List.append_nil], fun _ _ => rfl⟩
  versions _ _ h := h
  sound h := h

theorem Follows.trans {c : Txn} (h : Follows a b) (h' : Follows b c) : Follows a c where
  undone j hj := by
    obtain ⟨more, hb, hab⟩ := h.undone j hj
    obtain ⟨more', hc, hbc⟩ := h'.undone _ hb
    refine ⟨more ++ more', by rw [hc, List.append_assoc], fun t pk => ?_⟩
    rw [undo_append, opAt_undo_congr hbc, hab]
  versions t v hv := h'.versions t v (h.versions t v hv)
  sound hs := h'.sound (h.sound hs)

/-- The transaction once `record_op` has made sure that the table has its map. -/
def Txn.touched (tx : Txn) (t : Nat) : Txn :=
  { tx with writes := tx.writes.insert t ((tx.writes.lookup t).getD ∅) }

theorem opAt_touched (tx : Txn) (t t' : Nat) (pk : Bytes) :
    opAt (Txn.touched tx t).writes t' pk = opAt tx.writes t' pk := by
  show opAt (tx.writes.insert t ((tx.writes.lookup t).getD ∅)) t' pk = _
  rw [opAt_insert]
  split_ifs with h
  · rw [h, lookup_getD]
  · rfl

theorem follows_touched (tx : Txn) (t : Nat) : Follows tx (Txn.touched tx t) where
  undone j h := ⟨[], by rw [List.append_nil]; exact h, fun t' pk => opAt_touched tx t t' pk⟩
  versions _ _ h := h
  sound h := by
    intro t' version overlay hl
    refine ⟨(h t' version overlay hl).1, fun hv w hw hne => ?_⟩
    refine (h t' version overlay hl).2 hv w ?_ hne
    -- a map that was not there before is empty
    change (tx.writes.insert t ((tx.writes.lookup t).getD ∅)).lookup t' = some w at hw
    by_cases ht : t' = t
    · rw [ht, AList.lookup_insert] at hw
      rw [ht]
      cases hl : tx.writes.lookup t with
      | none =>
        rw [hl] at hw
        cases hw
        exact absurd rfl hne
      | some w' =>
        rw [hl] at hw
        exact hw
    · rwa [AList.lookup_insert_ne ht] at hw

/-- The transaction once `record_op` has buffered the write. -/
def Txn.journaled (tx : Txn) (t : Nat) (pk : Bytes) (pkValues : List RelationalValue) (op : RowOp)
    (n : Nat) : Txn :=
  { tx with
    writes := Txn.recorded tx t pk pkValues op
    journal := tx.journal.map fun es => es ++ [⟨t, pk, opAt tx.writes t pk⟩]
    opCount := if (opAt tx.writes t pk).isNone then tx.opCount + 1 else tx.opCount
    byteCount := tx.byteCount + n
    writeVersion := tx.writeVersion + 1 }

theorem follows_journaled (tx : Txn) (t : Nat) (pk : Bytes) (pkValues : List RelationalValue)
    (op : RowOp) (n : Nat) : Follows tx (Txn.journaled tx t pk pkValues op n) where
  undone j h := by
    refine ⟨[⟨t, pk, opAt tx.writes t pk⟩], ?_, fun t' pk' => ?_⟩
    · show tx.journal.map _ = _
      rw [h]
      rfl
    · show opAt (restoreEntry (Txn.recorded tx t pk pkValues op)
        ⟨t, pk, opAt tx.writes t pk⟩) t' pk' = _
      rw [opAt_restoreEntry]
      by_cases hk : t' = t ∧ pk' = pk
      · rw [if_pos hk, hk.1, hk.2]
      · rw [if_neg hk, Txn.recorded, opAt_insert]
        split_ifs with ht
        · rw [AList.lookup_insert_ne fun h => hk ⟨ht, h⟩, lookup_getD, ht]
        · rfl
  versions _ _ h := h
  sound h := sound_of_version_lt h rfl (Nat.lt_succ_self _)

/-- What `record_op` leaves, by the limits it meets. -/
theorem recordOp_eq (db : Db) (t : Nat) (pk : Bytes) (pkValues : List RelationalValue) (op : RowOp)
    (n : Nat) (tx : Txn) :
    recordOp db t pk pkValues op n tx =
      if (opAt tx.writes t pk).isNone ∧ db.limits.maxWriteSetOps ≤ tx.opCount then
        .error .writeSetOps (Txn.touched tx t)
      else if db.limits.maxWriteSetBytes < tx.byteCount + n then
        .error .writeSetBytes (Txn.touched tx t)
      else .ok () (Txn.journaled tx t pk pkValues op n) := by
  rw [recordOp, estate_get_bind]
  simp only [lookup_getD]
  split
  · rfl
  · split
    · rfl
    · rfl

/-! ## The calls -/

/-- A property of programs that one has if its parts have it. What a program reads of the
transaction is its write-set. -/
structure Composes (P : (α : Type) → TxnM α → Prop) : Prop where
  pure : ∀ {α : Type} (a : α), P α (pure a)
  throw : ∀ {α : Type} (e : TxnError), P α (throw e)
  bind : ∀ {α β : Type} {x : TxnM α} {f : α → TxnM β}, P α x → (∀ a, P β (f a)) → P β (x >>= f)
  get : ∀ {α : Type} {f : Txn → TxnM α}, (∀ s t, s.writes = t.writes → f s = f t) →
    (∀ s, P α (f s)) → P α (get >>= f)

/-- One that every call has, because the two writes have it ... -/
structure Closed (db : Db) (P : (α : Type) → TxnM α → Prop) : Prop extends Composes P where
  putRow : ∀ t row, P Unit (putRow db t row)
  deleteRow : ∀ t pk, P Unit (deleteRow db t pk)

section Closed

variable {P : (α : Type) → TxnM α → Prop} {db : Db} {α : Type} {s t : Txn}

theorem Composes.lift (h : Composes P) {ε : Type} {wrap : ε → TxnError} (x : Except ε α) :
    P α (liftTxn wrap x) := by
  cases x with
  | ok a => exact h.pure a
  | error e => exact h.throw (wrap e)

theorem Composes.leads {R : Txn → Txn → Prop} (hrefl : ∀ tx, R tx tx)
    (htrans : ∀ {a b c}, R a b → R b c → R a c) : Composes fun _ x => Leads R x :=
  ⟨.pure hrefl, .throw hrefl, Leads.bind htrans, fun _ h => Leads.get_bind h⟩

/-- ... as they do if recording a write and a version has it. -/
theorem Composes.closed (h : Composes P)
    (hop : ∀ t pk pkValues op n, P Unit (recordOp db t pk pkValues op n))
    (hversion : ∀ t v, P Unit (modify fun tx =>
      if (tx.tableVersions.lookup t).isSome then tx
      else { tx with tableVersions := tx.tableVersions.insert t v })) : Closed db P where
  toComposes := h
  putRow t row := by
    unfold RubixDb.putRow
    refine h.bind (h.lift _) fun shape => h.bind (h.lift _) fun _ => h.bind (h.lift _) fun pk =>
      h.bind (h.lift _) fun key => ?_
    exact h.bind (hversion t _) fun _ => hop t key pk _ _
  deleteRow t pk := by
    unfold RubixDb.deleteRow
    refine h.bind (h.lift _) fun shape => ?_
    split
    · exact h.bind (h.throw _) fun _ => h.bind (h.lift _) fun key => hop t key pk _ _
    · exact h.bind (h.lift _) fun key => hop t key pk _ _

theorem Closed.deleteRows (h : Closed db P) (t : Nat) (pks : List (List RelationalValue)) :
    P Unit (deleteRows db t pks) := by
  induction pks with
  | nil => exact h.pure ()
  | cons pk pks ih => exact h.bind (h.deleteRow t pk) fun _ => ih

theorem Closed.putUnmoved (h : Closed db P) (t : Nat) (shape : TableShape)
    (updates : List (Row × Row)) : P _ (putUnmoved db t shape updates) := by
  induction updates with
  | nil => exact h.pure _
  | cons u updates ih =>
    unfold RubixDb.putUnmoved
    refine h.bind (h.lift _) fun _ => h.bind (h.lift _) fun oldPk =>
      h.bind (h.lift _) fun newPk => ?_
    split
    · exact h.bind (h.putRow t u.2) fun _ => ih
    · exact h.bind ih fun moved => h.pure _

theorem getRow_congr (hw : s.writes = t.writes) : s.getRow db = t.getRow db := by
  funext
  simp only [Txn.getRow, Txn.ownOp, hw]

theorem Closed.putMoved (h : Closed db P) (t : Nat) (shape : TableShape)
    (moved : List (List RelationalValue × Row)) : P Unit (putMoved db t shape moved) := by
  induction moved with
  | nil => exact h.pure ()
  | cons m moved ih =>
    unfold RubixDb.putMoved
    refine h.bind (h.lift _) fun newPk => h.get (fun s s' hw => ?_) fun s => ?_
    · simp only [getRow_congr hw]
    · refine h.bind (h.lift _) fun taken => ?_
      split
      · exact h.bind (h.throw _) fun _ => h.bind (h.putRow t m.2) fun _ => ih
      · exact h.bind (h.putRow t m.2) fun _ => ih

theorem Closed.applyRowUpdates (h : Closed db P) (t : Nat) (updates : List (Row × Row)) :
    P Unit (applyRowUpdates db t updates) :=
  h.bind (h.lift _) fun shape => h.bind (h.putUnmoved t shape updates) fun moved =>
    h.bind (h.deleteRows t _) fun _ => h.putMoved t shape moved

/-! ### What the enforcement reads

It looks at the writes of a transaction and at nothing else of it. -/

section

variable (hw : s.writes = t.writes)
include hw

theorem findRowsInView_congr : findRowsInView db s = findRowsInView db t := by
  funext
  simp only [findRowsInView, Txn.own, hw]

theorem referencedExists_congr : referencedExists db s = referencedExists db t := by
  funext
  simp only [referencedExists, findRowsInView_congr hw]

theorem childrenOf_congr : childrenOf db s = childrenOf db t := by
  funext view fk tuples limit
  have heach : ∀ out, childrenOfEach db s view fk limit tuples out =
      childrenOfEach db t view fk limit tuples out := by
    induction tuples with
    | nil => intro out; rfl
    | cons x xs ih => intro out; simp only [childrenOfEach, findRowsInView_congr hw, ih]
  simp only [childrenOf, heach, childrenOfAll, Txn.own, hw]

theorem providedKeys_congr : providedKeys db s = providedKeys db t := by
  funext fk moved
  induction moved with
  | nil => rfl
  | cons m moved ih => simp only [providedKeys, referencedExists_congr hw, ih]

theorem childActions_congr : childActions db s = childActions db t := by
  funext fk columns provided newFor children
  induction children with
  | nil => rfl
  | cons c children ih => simp only [childActions, childAction, referencedExists_congr hw, ih]

end

theorem Composes.checkReferencing (h : Composes P) (fk : ForeignKeyRow) (changes : List RowChange) :
    P Unit (checkReferencing db fk changes) := by
  induction changes with
  | nil => exact h.pure ()
  | cons c changes ih =>
    unfold RubixDb.checkReferencing
    simp only []
    split
    · exact ih
    · split
      · exact ih
      · refine h.get (fun s t hw => ?_) fun s => ?_
        · simp only [referencedExists_congr hw]
        · refine h.bind (h.lift _) fun atSnapshot => ?_
          split
          · exact ih
          · refine h.bind (h.lift _) fun now => ?_
            split
            · exact ih
            · exact h.throw _

theorem Composes.checkAllReferencing (h : Composes P) (changes : List RowChange)
    (fks : List ForeignKeyRow) : P Unit (checkAllReferencing db changes fks) := by
  induction fks with
  | nil => exact h.pure ()
  | cons fk fks ih =>
    exact h.bind (h.lift _) fun _ => h.bind (h.checkReferencing fk changes) fun _ => ih

theorem Closed.enforceReferenced (h : Closed db P)
    {next : Nat → List RowChange → TxnM (List CascadedWrite)}
    (hnext : ∀ t changes, P _ (next t changes)) (fk : ForeignKeyRow) (changes : List RowChange) :
    P _ (enforceReferenced db next fk changes) := by
  unfold RubixDb.enforceReferenced
  simp only []
  split
  · exact h.pure _
  · refine h.bind (h.lift _) fun _ => h.get (fun s t hw => ?_) fun s => ?_
    · simp only [childrenOf_congr hw, providedKeys_congr hw, childActions_congr hw]
    · refine h.bind (h.lift _) fun children => ?_
      split
      · exact h.pure _
      · refine h.bind (h.lift _) fun provided => h.bind (h.lift _) fun newFor =>
          h.bind (h.lift _) fun shape => h.bind (h.lift _) fun actions =>
            h.bind (h.deleteRows fk.tableId _) fun _ => ?_
        -- the changed rows are enforced in turn, whether or not any was rewritten
        split
        · refine h.bind (h.applyRowUpdates fk.tableId _) fun _ => ?_
          split
          · exact h.pure _
          · exact h.bind (hnext _ _) fun _ => h.pure _
        · split
          · exact h.pure _
          · exact h.bind (hnext _ _) fun _ => h.pure _

theorem Closed.enforceInner (h : Closed db P) (levels t : Nat) (changes : List RowChange) :
    P _ (enforceInner db levels t changes) := by
  induction levels generalizing t changes with
  | zero => exact h.throw _
  | succ levels ih =>
    refine h.bind (h.checkAllReferencing changes _) fun _ => ?_
    generalize db.foreignKeys.filter (·.parentTableId = t) = fks
    induction fks with
    | nil => exact h.pure _
    | cons fk fks ihs =>
      exact h.bind (h.enforceReferenced ih fk changes) fun _ => h.bind ihs fun _ => h.pure _

theorem Closed.enforceForeignKeys (h : Closed db P) (t : Nat) (changes : List RowChange) :
    P _ (enforceForeignKeys db t changes) := by
  unfold RubixDb.enforceForeignKeys
  split
  · exact h.pure _
  · exact h.enforceInner _ t changes

theorem finalState_runTxn (x : TxnM α) (tx : Txn) : (runTxn x tx).2 = finalState (x tx) := by
  rw [runTxn]
  cases x tx with
  | ok a s => rfl
  | error e s => rfl

/-- What the two reads and the writes do is what every call does. -/
theorem Closed.call {R : Txn → Txn → Prop} {tx : Txn} (h : Closed db fun _ x => Leads R x)
    (hread : R tx tx) (hoverlay : ∀ t, R tx (tx.overlayFor t).2) (call : TxnCall) :
    R tx (call.run db tx).2 := by
  cases call with
  | getRow t pk => exact hread
  | overlayFor t => exact hoverlay t
  | putRow t row => exact finalState_runTxn _ tx ▸ h.putRow t row tx
  | deleteRow t pk => exact finalState_runTxn _ tx ▸ h.deleteRow t pk tx
  | applyRowUpdates t updates => exact finalState_runTxn _ tx ▸ h.applyRowUpdates t updates tx
  | enforceForeignKeys t changes =>
    exact finalState_runTxn _ tx ▸ h.enforceForeignKeys t changes tx

end Closed

/-! ## From a savepoint to its rollback -/

theorem follows_version (t v : Nat) : Leads Follows (modify fun tx =>
    if (tx.tableVersions.lookup t).isSome then tx
    else { tx with tableVersions := tx.tableVersions.insert t v } : TxnM Unit) := by
  intro tx
  show Follows tx (if (tx.tableVersions.lookup t).isSome then tx
    else { tx with tableVersions := tx.tableVersions.insert t v })
  split_ifs with hnone
  · exact Follows.refl tx
  · refine ⟨(Follows.refl tx).undone, fun t' v' h => ?_, fun h => h⟩
    have hne : t' ≠ t := by
      intro heq
      rw [heq] at h
      rw [h] at hnone
      exact hnone rfl
    exact (AList.lookup_insert_ne hne).trans h

theorem closed_follows (db : Db) : Closed db fun _ x => Leads Follows x := by
  refine Composes.closed (.leads Follows.refl Follows.trans) ?_ follows_version
  intro t pk pkValues op n tx
  rw [recordOp_eq]
  split
  · exact follows_touched tx t
  · split
    · exact follows_touched tx t
    · exact follows_journaled tx t pk pkValues op n

theorem follows_overlayFor (tx : Txn) (t : Nat) : Follows tx (tx.overlayFor t).2 := by
  obtain ⟨hw, -, -, hv, hj, -⟩ := overlayFor_fields tx t
  refine ⟨fun j h => ⟨[], ?_, fun t pk => ?_⟩, fun t' v h => ?_, fun h => sound_overlayFor h t⟩
  · rw [hj, List.append_nil, h]
  · show opAt (tx.overlayFor _).2.writes t pk = _
    rw [hw]
  · rw [hv, h]

theorem follows_call (db : Db) (tx : Txn) (call : TxnCall) : Follows tx (call.run db tx).2 :=
  (closed_follows db).call (Follows.refl tx) (follows_overlayFor tx) call

theorem lookup_retainNonEmpty (writes : WriteSet) (t : Nat) :
    (retainNonEmpty writes).lookup t = (writes.lookup t).filter fun w => !w.entries.isEmpty := by
  ext w
  rw [Option.filter_eq_some_iff, ← Option.mem_def, ← Option.mem_def, AList.mem_lookup_iff,
    AList.mem_lookup_iff]
  exact List.mem_filter

theorem opAt_retainNonEmpty (writes : WriteSet) (t : Nat) (pk : Bytes) :
    opAt (retainNonEmpty writes) t pk = opAt writes t pk := by
  rw [opAt, lookup_retainNonEmpty, opAt]
  cases writes.lookup t with
  | none => rfl
  | some w =>
    by_cases hempty : w.entries = []
    · rw [Option.filter_some_neg (by simp [hempty])]
      have : w.lookup pk = none := by rw [AList.lookup, hempty]; rfl
      exact this.symm
    · rw [Option.filter_some_pos (by simp [hempty])]

/-- What a rollback leaves, from what had become of the transaction. -/
theorem rollbackTo_eq (h : Follows a.savepoint.2 b) :
    ∃ more, b.journal = some (a.journal.getD [] ++ more) ∧
      (∀ t pk, opAt (undo more b.writes) t pk = opAt a.writes t pk) ∧
      b.rollbackTo a.savepoint.1 =
        { b with
          writes := retainNonEmpty (undo more b.writes)
          opCount := a.opCount
          byteCount := a.byteCount
          writeVersion := b.writeVersion + 1
          journal := a.journal } := by
  obtain ⟨more, hj, hw⟩ := h.undone _ rfl
  refine ⟨more, hj, hw, ?_⟩
  rw [Txn.rollbackTo, hj]
  simp only [Txn.savepoint, List.drop_left, List.take_left]
  cases a.journal with
  | none => rfl
  | some j => rfl

theorem Follows.rolledBack (h : Follows a.savepoint.2 b) :
    Follows a (b.rollbackTo a.savepoint.1) := by
  obtain ⟨more, -, hw, heq⟩ := rollbackTo_eq h
  rw [heq]
  refine ⟨fun j hja => ⟨[], ?_, fun t pk => ?_⟩, h.versions, fun hs => ?_⟩
  · rw [List.append_nil]
    exact hja
  · exact (opAt_retainNonEmpty _ t pk).trans (hw t pk)
  · exact sound_of_version_lt (h.sound hs) rfl (Nat.lt_succ_self _)

/-- A savepoint inside an open one does not own the journal, so it stays. -/
theorem Follows.released (h : Follows a.savepoint.2 b) :
    Follows a (b.releaseSavepoint a.savepoint.1) := by
  rw [Txn.releaseSavepoint]
  cases hj : a.journal with
  | none =>
    rw [if_pos (by rw [Txn.savepoint, hj]; rfl)]
    refine ⟨fun j hja => ?_, h.versions, h.sound⟩
    rw [hj] at hja
    cases hja
  | some j =>
    have hsame : a.savepoint.2 = a := by
      rw [Txn.savepoint, hj]
      show { a with journal := some j } = a
      rw [← hj]
    rw [if_neg (by rw [Txn.savepoint, hj]; exact Bool.false_ne_true)]
    rw [hsame] at h
    exact h

/-- **Every run of calls is followed by its journal.** -/
theorem Follows.of_ran (h : Ran a b) : Follows a b := by
  induction h with
  | refl tx => exact Follows.refl tx
  | call db call _ ih => exact ih.trans (follows_call db _ call)
  | released _ _ ih ih' => exact ih.trans ih'.released
  | rolledBack _ _ ih ih' => exact ih.trans ih'.rolledBack

/-! ## Buffered rows and their keys -/

section Keyed

variable {db : Db}

theorem ownOp_eq (tx : Txn) (t : Nat) (k : Bytes) :
    tx.ownOp t k = (opAt tx.writes t k).map (·.2) := by
  rw [Txn.ownOp, opAt]
  cases tx.writes.lookup t with
  | none => rfl
  | some w => cases h : w.lookup k <;> simp [h]

theorem keyed_congr (h : ∀ t k, opAt b.writes t k = opAt a.writes t k) (hk : Txn.Keyed db a) :
    Txn.Keyed db b := by
  intro t k row shape hop
  rw [ownOp_eq, h, ← ownOp_eq] at hop
  exact hk t k row shape hop

/-- A failed write leaves what is buffered; one that is recorded stands at its key. -/
theorem keyed_recordOp {t : Nat} {k : Bytes} {pk : List RelationalValue} {op : RowOp} {n : Nat}
    (hop : ∀ row shape, op = .put row → db.shape t = some shape →
      ∃ pk, tupleOf row shape.table.pkOrdinals = some pk ∧ encodeCompositeKey pk = .ok k) :
    Leads (fun a b => Txn.Keyed db a → Txn.Keyed db b) (recordOp db t k pk op n) := by
  intro tx hk
  rw [recordOp_eq]
  split
  · exact keyed_congr (opAt_touched tx t) hk
  · split
    · exact keyed_congr (opAt_touched tx t) hk
    · intro t' k' row shape hrow
      rw [@ownOp_of_recorded _ _ _ _ tx _ _ _ rfl] at hrow
      split_ifs at hrow with heq
      · obtain ⟨rfl, rfl⟩ := heq
        exact hop row shape (Option.some.inj hrow)
      · exact hk t' k' row shape hrow

theorem leads_lift {ε α β : Type} {R : Txn → Txn → Prop} {wrap : ε → TxnError} {x : Except ε α}
    {f : α → TxnM β} (hrefl : ∀ tx, R tx tx) (hf : ∀ a, x = .ok a → Leads R (f a)) :
    Leads R (liftTxn wrap x >>= f) := by
  cases x with
  | ok a => exact hf a rfl
  | error e => exact hrefl

theorem closed_keyed (db : Db) :
    Closed db fun _ x => Leads (fun a b => Txn.Keyed db a → Txn.Keyed db b) x where
  toComposes := .leads (fun _ h => h) fun h h' hk => h' (h hk)
  putRow t row := by
    refine leads_lift (fun _ h => h) fun shape hshape => leads_lift (fun _ h => h) fun _ _ =>
      leads_lift (fun _ h => h) fun pk hpk => leads_lift (fun _ h => h) fun key hkey => ?_
    refine Leads.bind (fun h h' hk => h' (h hk)) (fun tx hk => ?_) fun _ => keyed_recordOp ?_
    · refine keyed_congr (fun t' k => ?_) hk
      show opAt (ite _ _ _ : Txn).writes t' k = _
      split <;> rfl
    · intro row' shape' hrow hshape'
      cases hrow
      rw [resolveTable_eq_ok.mp hshape] at hshape'
      cases hshape'
      exact ⟨pk, extractPkValues_eq_ok.mp hpk, hkey⟩
  deleteRow t pk := by
    unfold RubixDb.deleteRow
    refine leads_lift (fun _ h => h) fun shape _ => ?_
    split
    · exact fun _ h => h
    · exact leads_lift (fun _ h => h) fun key _ => keyed_recordOp nofun

/-- The states of a transaction that calls and savepoints lead to in one database. -/
inductive Underway (db : Db) : Txn → Prop where
  | begin : Underway db .begin
  | call {a : Txn} (call : TxnCall) : Underway db a → Underway db (call.run db a).2
  | savepoint {a : Txn} : Underway db a → Underway db a.savepoint.2
  | release {a : Txn} (sp : Savepoint) : Underway db a → Underway db (a.releaseSavepoint sp)
  | rollback {a b : Txn} : Underway db a → Ran a.savepoint.2 b →
      Underway db (b.rollbackTo a.savepoint.1)

/-- **Every buffered row stands at the key of its own values**, whatever was called. -/
theorem keyed_of_underway (h : Underway db tx) : Txn.Keyed db tx := by
  induction h with
  | begin => exact keyed_begin db
  | @call a call _ ih =>
    refine (closed_keyed db).call id (fun t => keyed_congr fun t' k => ?_) call ih
    show opAt (a.overlayFor t).2.writes t' k = _
    rw [(overlayFor_fields a t).1]
  | savepoint _ ih => exact keyed_congr (fun _ _ => rfl) ih
  | @release a sp _ ih =>
    refine keyed_congr (fun t k => ?_) ih
    rw [Txn.releaseSavepoint]
    split <;> rfl
  | rollback _ hran ih =>
    -- what is buffered is what was at the savepoint
    obtain ⟨more, -, hw, heq⟩ := rollbackTo_eq (Follows.of_ran hran)
    refine keyed_congr (fun t k => ?_) ih
    rw [heq]
    exact (opAt_retainNonEmpty _ t k).trans (hw t k)

end Keyed

end RubixDb.Proof
