import RubixDb.Proof.TxnAlike

/-!
# When a rollback is exact

* a rollback that finds no empty map and no new version restores the transaction
  (`rollbackTo_restores`), and nobody can tell the two apart;
* otherwise a commit against a suitable catalog is refused for one of the two only: the
  catalog lacks a table that was left with an empty map, or has another version of a table
  than the one recorded behind the savepoint (`commitOps_of_complaint`,
  `complaint_of_error`).
-/

namespace RubixDb.Proof

open Lib

/-! ## Catalogs that tell two transactions apart -/

variable {t : Nat} {e : TxnError} {ts : List Nat} {version : Nat → Nat} {tx a b : Txn}

/-- A table with nothing but a key. -/
def plainShape (t version : Nat) : TableShape where
  table := ⟨t, [0], version, .active⟩
  columns := [⟨t, 0, "id", 2, false, none, 0, none, none⟩]

/-- A store with the tables `ts` and no rows. -/
def plainStore (ts : List Nat) (version : Nat → Nat) : RelStore :=
  ts.map fun t => ⟨.table t, 0, some (.table (plainShape t (version t)))⟩

theorem readAt_plainStore (ts : List Nat) (version : Nat → Nat) (k : StoreKey) (s : Nat) :
    readAt (plainStore ts version) k s =
      match k with
      | .table t => if ts.contains t then some (.table (plainShape t (version t))) else none
      | _ => none := by
  rw [readAt]
  cases hb : best (plainStore ts version) k s with
  | none =>
    rw [best_eq_none_iff] at hb
    cases k with
    | table t =>
      have ht : t ∉ ts := fun ht => hb _ (List.mem_map_of_mem ht) ⟨rfl, Nat.zero_le s⟩
      simp [ht]
    | _ => rfl
  | some v =>
    obtain ⟨hv, ⟨hkey, -⟩, -⟩ := isBest_of_best hb
    obtain ⟨t, ht, rfl⟩ := List.mem_map.mp hv
    subst hkey
    simp [ht]

/-- What a commit against `plainStore ts version` has against a written table. -/
def complaint (ts : List Nat) (version : Nat → Nat) (tx : Txn) (t : Nat) : Option TxnError :=
  if !ts.contains t then some (.tableNotFound t)
  else if (tx.tableVersions.lookup t).any (· ≠ version t) then some (.conflict .tableAltered)
  else none

section Plain

variable {ts : List Nat} {version : Nat → Nat} {limits : TxnLimits} {snapshot : Nat} {tx : Txn}

theorem complaint_eq_none_iff : complaint ts version tx t = none ↔
    t ∈ ts ∧ ∀ v, tx.tableVersions.lookup t = some v → v = version t := by
  rw [complaint]
  cases tx.tableVersions.lookup t <;> by_cases ht : t ∈ ts <;> simp [ht]

theorem complaint_eq_notFound_iff {t' : Nat} :
    complaint ts version tx t = some (.tableNotFound t') ↔ t ∉ ts ∧ t = t' := by
  rw [complaint]
  split_ifs <;> simp_all

theorem complaint_eq_altered_iff :
    complaint ts version tx t = some (.conflict .tableAltered) ↔
      t ∈ ts ∧ ∃ v, tx.tableVersions.lookup t = some v ∧ v ≠ version t := by
  rw [complaint]
  cases tx.tableVersions.lookup t <;> split_ifs <;> simp_all

theorem shape_plainStore (t : Nat) : (dbOf limits (plainStore ts version) snapshot []).shape t =
    if ts.contains t then some (plainShape t (version t)) else none := by
  show tableAt (plainStore ts version) _ t = _
  rw [tableAt, readAt_plainStore]
  by_cases h : t ∈ ts
  · simp [h, StoreValue.table?, TableShape.withId, plainShape]
  · simp [h]

theorem indexes_plainStore (t : Nat) :
    (dbOf limits (plainStore ts version) snapshot []).indexes t = [] := by
  show listIndexesAt _ _ _ = []
  rw [List.eq_nil_iff_forall_not_mem]
  intro i hi
  obtain ⟨k, v, hk, hf⟩ := mem_scanAt.mp hi
  rw [readAt_plainStore] at hk
  cases k with
  | index i => cases hk
  | _ => cases hf

theorem buildRows_plainStore (t : Nat)
    (entries : List (Sigma fun _ : Bytes => List RelationalValue × RowOp)) :
    ∃ ops, buildRows (dbOf limits (plainStore ts version) snapshot []) (plainShape t (version t)) []
      entries = .ok (ops, []) := by
  induction entries with
  | nil => exact ⟨[], rfl⟩
  | cons e entries ih =>
    obtain ⟨rest, hrest⟩ := ih
    -- the only column is the key's, so that nothing is stored and nothing is too large
    have hvalue : ∀ row, ∃ bytes,
        buildPutValue (plainShape t (version t)).table (plainShape t (version t)).columns row =
          .ok bytes := by
      intro row
      refine ⟨encodeRow (version t) [], ?_⟩
      have hfields :
          nonPkFields (plainShape t (version t)).table (plainShape t (version t)).columns row =
          .ok [] := rfl
      rw [buildPutValue, hfields, ok_bind]
      simp [plainShape, encodeRow, encodeRowEnvelope, maxRowValueBytes, nullBitmap, nullBitmapLen,
        encodeValues]
    have hrow : ∃ ops, buildRow (dbOf limits (plainStore ts version) snapshot [])
        (plainShape t (version t)) [] e.1 e.2.1 e.2.2 = .ok (ops, []) := by
      cases e.2.2 with
      | put row =>
        obtain ⟨bytes, hbytes⟩ := hvalue row
        exact ⟨_, rfl⟩
      | delete => exact ⟨_, rfl⟩
    obtain ⟨ops, hops⟩ := hrow
    refine ⟨ops ++ rest, ?_⟩
    rw [buildRows, hops, hrest]
    rfl

theorem buildTable_of_complaint {writes : TableWrites} (h : complaint ts version tx t = some e) :
    buildTable (dbOf limits (plainStore ts version) snapshot []) tx t writes = .error e := by
  rw [complaint] at h
  rw [buildTable, Db.resolveTable, shape_plainStore]
  cases ht : ts.contains t with
  | false =>
    rw [ht] at h
    cases h
    rfl
  | true =>
    rw [ht] at h
    change (if (tx.tableVersions.lookup t).any (· ≠ version t) then _ else _) = _ at h
    split_ifs at h with hv
    cases h
    exact if_pos hv

theorem buildTable_of_no_complaint {t : Nat} {writes : TableWrites}
    (h : complaint ts version tx t = none) : ∃ ops,
      buildTable (dbOf limits (plainStore ts version) snapshot []) tx t writes = .ok (ops, []) := by
  rw [complaint] at h
  rw [buildTable, Db.resolveTable, shape_plainStore]
  cases ht : ts.contains t with
  | false =>
    rw [ht] at h
    cases h
  | true =>
    rw [ht] at h
    change (if (tx.tableVersions.lookup t).any (· ≠ version t) then _ else _) = _ at h
    split_ifs at h with hv
    have hindexes : maintainedIndexes (dbOf limits (plainStore ts version) snapshot []) t = [] := by
      rw [maintainedIndexes, indexes_plainStore]
      rfl
    obtain ⟨ops, hops⟩ := @buildRows_plainStore ts version limits snapshot t writes.entries
    refine ⟨ops, (if_neg hv).trans ?_⟩
    rw [hindexes]
    exact hops

/-- The first table there is something against stops the commit. -/
theorem buildTables_plainStore (entries : List (Sigma fun _ : Nat => TableWrites)) :
    (∃ ops, buildTables (dbOf limits (plainStore ts version) snapshot []) tx entries =
      .ok (ops, []) ∧
        ∀ x ∈ entries, complaint ts version tx x.1 = none) ∨
      ∃ e, buildTables (dbOf limits (plainStore ts version) snapshot []) tx entries = .error e ∧
        ∃ x ∈ entries, complaint ts version tx x.1 = some e := by
  induction entries with
  | nil => exact .inl ⟨[], rfl, by simp⟩
  | cons x entries ih =>
    rw [buildTables]
    cases hc : complaint ts version tx x.1 with
    | some e =>
      rw [buildTable_of_complaint hc]
      exact .inr ⟨e, rfl, x, by simp, hc⟩
    | none =>
      obtain ⟨ops, hops⟩ := @buildTable_of_no_complaint ts version limits snapshot tx x.1 x.2 hc
      rw [hops]
      rcases ih with ⟨rest, hrest, hall⟩ | ⟨e, herr, y, hy, hyc⟩
      · refine .inl ⟨ops ++ rest, by rw [hrest]; rfl, fun y hy => ?_⟩
        rcases List.mem_cons.mp hy with rfl | hy
        · exact hc
        · exact hall y hy
      · exact .inr ⟨e, by rw [herr]; rfl, y, List.mem_cons_of_mem _ hy, hyc⟩

/-- A commit against these tables fails only by a complaint about one of them. -/
theorem commitOps_plainStore (limits : TxnLimits) (snapshot : Nat) :
    ((∃ out, tx.commitOps limits (plainStore ts version) snapshot [] = .ok out) ∧
        ∀ t w, tx.writes.lookup t = some w → complaint ts version tx t = none) ∨
      ∃ e, tx.commitOps limits (plainStore ts version) snapshot [] = .error e ∧
        ∃ t w, tx.writes.lookup t = some w ∧ complaint ts version tx t = some e := by
  have hmem : ∀ x, x ∈ tx.writes.entries.mergeSort (fun a b => a.1 ≤ b.1) ↔
      tx.writes.lookup x.1 = some x.2 := by
    intro x
    rw [List.mem_mergeSort, ← Option.mem_def, AList.mem_lookup_iff]
  rw [Txn.commitOps]
  by_cases hempty : tx.writes.entries.isEmpty = true
  · rw [if_pos hempty]
    refine .inl ⟨⟨_, rfl⟩, fun t w hw => ?_⟩
    rw [← Option.mem_def, AList.mem_lookup_iff, List.isEmpty_iff.mp hempty] at hw
    cases hw
  · rw [if_neg hempty, validateAndBuildOps]
    rcases @buildTables_plainStore ts version limits snapshot tx
      (tx.writes.entries.mergeSort fun a b => a.1 ≤ b.1)
    with ⟨ops, hops, hall⟩ | ⟨e, herr, x, hx, hxc⟩
    · have hfresh : rowsFresh (plainStore ts version) snapshot tx = true := by
        rw [rowsFresh, List.all_eq_true]
        intro k hk
        obtain ⟨x, -, hx⟩ := List.mem_flatMap.mp hk
        obtain ⟨y, -, rfl⟩ := List.mem_map.mp hx
        rw [readAt_plainStore, readAt_plainStore]
        rfl
      refine .inl ⟨⟨some ops, ?_⟩, fun t w hw => hall ⟨t, w⟩ ((hmem _).mpr hw)⟩
      simp only [hops, ok_bind, hfresh]
      rfl
    · refine .inr ⟨e, ?_, x.1, x.2, (hmem x).mp hx, hxc⟩
      simp only [herr]
      rfl

end Plain

/-! ## A rollback that is not exact -/

/-- A commit is refused for `t` when that is the only table there is something against. -/
theorem commitOps_of_complaint {w : TableWrites} (hw : tx.writes.lookup t = some w)
    (ht : complaint ts version tx t = some e)
    (hothers : ∀ t' w', tx.writes.lookup t' = some w' → t' ≠ t →
      complaint ts version tx t' = none) :
    tx.commitOps ⟨0, 0⟩ (plainStore ts version) 0 [] = .error e := by
  rcases @commitOps_plainStore ts version tx ⟨0, 0⟩ 0 with ⟨-, hall⟩ | ⟨e', herr, t', w', hw', hc⟩
  · rw [hall t w hw] at ht
    cases ht
  · by_cases hne : t' = t
    · rw [hne, ht] at hc
      cases hc
      exact herr
    · rw [hothers t' w' hw' hne] at hc
      cases hc

/-- Where a refused commit comes from. -/
theorem complaint_of_error (h : tx.commitOps ⟨0, 0⟩ (plainStore ts version) 0 [] = .error e) :
    ∃ t w, tx.writes.lookup t = some w ∧ complaint ts version tx t = some e := by
  rcases @commitOps_plainStore ts version tx ⟨0, 0⟩ 0 with ⟨⟨out, hok⟩, -⟩ | ⟨e', herr, hc⟩
  · rw [hok] at h
    cases h
  · rw [herr] at h
    cases h
    exact hc

/-- A table that was left with an empty map makes a commit fail when it is dropped. -/
theorem noEmptyTable_of_behavesAlike (h : BehavesAlike a b) (hb : NoEmptyTable b.writes)
    (hops : ∀ t pk, opAt b.writes t pk = opAt a.writes t pk) : NoEmptyTable a.writes := by
  intro t w hw hnil
  -- the catalog has every table of the write-set but `t`
  let ts := a.writes.keys.filter (· ≠ t)
  let version := fun t' => (a.tableVersions.lookup t').getD 1
  have hothers : ∀ t' w', a.writes.lookup t' = some w' → t' ≠ t →
      complaint ts version a t' = none := by
    intro t' w' hw' hne
    have hmem : t' ∈ a.writes.keys := AList.lookup_isSome.mp (by rw [hw']; rfl)
    refine complaint_eq_none_iff.mpr
      ⟨List.mem_filter.mpr ⟨hmem, by simpa using hne⟩, fun v hv => ?_⟩
    show v = (a.tableVersions.lookup t').getD 1
    rw [hv, Option.getD_some]
  have ht : complaint ts version a t = some (.tableNotFound t) :=
    complaint_eq_notFound_iff.mpr ⟨by simp [ts], rfl⟩
  obtain ⟨last, hlast, hout⟩ := (h.later [] [] [] ⟨0, 0⟩ (plainStore ts version) 0 [] _).mp
    ⟨a, .done (Relisted.refl a), commitOps_of_complaint hw ht hothers⟩
  cases hlast with
  | done hr =>
    -- only `t` can be missed under that number, and the other transaction does not write it
    obtain ⟨t', w', hw', hc⟩ := complaint_of_error hout
    obtain rfl := (complaint_eq_notFound_iff.mp hc).2
    have hsome := hr.tables t'
    rw [hw'] at hsome
    obtain ⟨pk, hpk⟩ := (isSome_lookup_iff hb t').mp hsome
    rw [hops, opAt, hw, Option.bind_some, AList.lookup, hnil] at hpk
    cases hpk

/-- A database in which `t` is a table and nothing may be written. -/
def lockedDb (t : Nat) : Db := dbOf ⟨0, 0⟩ (plainStore [t] fun _ => 1) 0 []

/-- A delete brings its table into the write-set, even when it fails, and records no
version. -/
theorem deleteRow_lockedDb (tx : Txn) (t : Nat) :
    let tx' := finalState (deleteRow (lockedDb t) t [.integer 0] tx)
    (tx'.writes.lookup t).isSome ∧
      (∀ t', t' ≠ t → tx'.writes.lookup t' = tx.writes.lookup t') ∧
      tx'.tableVersions = tx.tableVersions := by
  obtain ⟨key, hkey⟩ : ∃ key, encodeCompositeKey [.integer 0] = .ok key := ⟨_, rfl⟩
  have hrun : deleteRow (lockedDb t) t [.integer 0] tx =
      recordOp (lockedDb t) t key [.integer 0] .delete 0 tx := by
    have hshape : (lockedDb t).resolveTable t = .ok (plainShape t 1) := by
      rw [resolveTable_eq_ok, lockedDb, shape_plainStore]
      simp
    rw [deleteRow, hshape, hkey]
    rfl
  have hinsert : ∀ w : TableWrites, ((tx.writes.insert t w).lookup t).isSome ∧
      ∀ t', t' ≠ t → (tx.writes.insert t w).lookup t' = tx.writes.lookup t' := by
    intro w
    rw [AList.lookup_insert]
    exact ⟨rfl, fun t' hne => AList.lookup_insert_ne hne⟩
  rw [hrun, recordOp_eq]
  split
  · exact ⟨(hinsert _).1, (hinsert _).2, rfl⟩
  · split
    · exact ⟨(hinsert _).1, (hinsert _).2, rfl⟩
    · exact ⟨(hinsert _).1, (hinsert _).2, rfl⟩

/-- A version that was recorded for `t` makes a commit fail when `t` has been altered. -/
theorem noNewVersion_of_behavesAlike (h : BehavesAlike a b)
    (hext : ∀ t v, a.tableVersions.lookup t = some v → b.tableVersions.lookup t = some v) :
    NoNewVersion a b := by
  intro t hs
  obtain ⟨v, hv⟩ := Option.isSome_iff_exists.mp hs
  by_contra hnone
  -- the catalog has every table that is written, `t` with another version than `b` recorded
  let ts := t :: b.writes.keys
  let version := fun t' => if t' = t then v + 1 else (b.tableVersions.lookup t').getD 1
  let call : LaterCall := .call (.deleteRow t [.integer 0])
  have hfinal : ∀ tx : Txn, (call.run (lockedDb t) tx []).2.1 =
      finalState (deleteRow (lockedDb t) t [.integer 0] tx) := fun tx => finalState_runTxn _ tx
  obtain ⟨hwb, hrestb, hvb⟩ := deleteRow_lockedDb b t
  rw [← hfinal b] at hwb hrestb hvb
  obtain ⟨w, hw⟩ := Option.isSome_iff_exists.mp hwb
  have ht : complaint ts version (call.run (lockedDb t) b []).2.1 t =
      some (.conflict .tableAltered) := by
    refine complaint_eq_altered_iff.mpr ⟨by simp [ts], v, by rw [hvb, hv], ?_⟩
    simp [version]
  have hothers : ∀ t' w', (call.run (lockedDb t) b []).2.1.writes.lookup t' = some w' → t' ≠ t →
      complaint ts version (call.run (lockedDb t) b []).2.1 t' = none := by
    intro t' w' hw' hne
    rw [hrestb t' hne] at hw'
    have hmem : t' ∈ b.writes.keys := AList.lookup_isSome.mp (by rw [hw']; rfl)
    refine complaint_eq_none_iff.mpr ⟨List.mem_cons_of_mem _ hmem, fun v' hv' => ?_⟩
    rw [hvb] at hv'
    simp [version, hne, hv']
  obtain ⟨last, hlast, hout⟩ :=
    (h.later [] [(lockedDb t, call)] _ ⟨0, 0⟩ (plainStore ts version) 0 [] _).mpr
    ⟨_, .step (Relisted.refl b) (.done (Relisted.refl _)), commitOps_of_complaint hw ht hothers⟩
  generalize hres : [(call.run (lockedDb t) b []).1] = results at hlast
  cases hlast with
  | @step _ a' _ _ _ _ _ _ hr hdone =>
    cases hdone with
    | done hr' =>
      obtain ⟨t', w', hw', hc⟩ := complaint_of_error hout
      obtain ⟨-, v', hv', hne⟩ := complaint_eq_altered_iff.mp hc
      -- what the other transaction has recorded is what the catalog says
      have hva : a.tableVersions.lookup t' = some v' := by
        rw [hr.versions, ← hv', ← hr'.versions, hfinal a', (deleteRow_lockedDb a' t).2.2]
      by_cases htt : t' = t
      · rw [htt] at hva
        rw [hva] at hnone
        exact hnone rfl
      · refine hne ?_
        simp [version, htt, hext t' v' hva]

/-! ## Every transaction -/

theorem Continues.sound {last : Txn} {opened : List Savepoint} {calls : List (Db × LaterCall)}
    {results : List TxnResult} (h : Continues tx opened calls results last) (hs : Txn.Sound tx) :
    Txn.Sound last := by
  induction h with
  | done hr => exact hr.sound hs
  | step hr _ ih => exact ih (sound_laterCall (hr.sound hs) _ _ _)

/-- A state of a transaction: what calls make of a new one. -/
def Opened (tx : Txn) : Prop := ∃ calls results, Continues Txn.begin [] calls results tx

theorem Opened.sound (h : Opened tx) : Txn.Sound tx := by
  obtain ⟨calls, results, h⟩ := h
  exact h.sound sound_begin

/-- **A rollback is exact** if and only if no table of the transaction was left with an
empty map and no version was recorded since the savepoint for a table that had none. -/
theorem rollback_exact_iff {tx b : Txn} (htx : Opened tx) (h : Ran tx.savepoint.2 b) :
    BehavesAlike tx (b.rollbackTo tx.savepoint.1) ↔ NoEmptyTable tx.writes ∧ NoNewVersion tx b := by
  have hs := htx.sound
  have hfollows := Follows.of_ran h
  have hsound := hfollows.rolledBack.sound hs
  obtain ⟨more, -, -, heq⟩ := rollbackTo_eq hfollows
  have hversions : (b.rollbackTo tx.savepoint.1).tableVersions = b.tableVersions := by rw [heq]
  constructor
  · intro hb
    constructor
    · refine noEmptyTable_of_behavesAlike hb ?_ (opAt_rollbackTo hfollows)
      rw [heq]
      exact noEmptyTable_retainNonEmpty _
    · intro t ht
      refine noNewVersion_of_behavesAlike hb ?_ t ?_
      · rw [hversions]
        exact hfollows.versions
      · rw [hversions]
        exact ht
  · rintro ⟨hempty, hnew⟩
    obtain ⟨c, hr, hal⟩ := rollbackTo_restores hfollows hempty hnew
    exact behavesAlike_of_restores hs hsound hr hal

/-- A database with one table of integers, at the given version. -/
def oneTable (version : Nat) : Db := dbOf ⟨10, 1000⟩ (plainStore [1] fun _ => version) 0 []

/-- A transaction after `put_row` of one row. -/
def afterPut (version : Nat) (tx : Txn) : Txn :=
  ((TxnCall.putRow 1 [some (.integer 7)]).run (oneTable version) tx).2

/-- What it then commits against that table. -/
def committed (version : Nat) (tx : Txn) : Except TxnError (Option RelOps) :=
  tx.commitOps ⟨10, 1000⟩ (plainStore [1] fun _ => version) 0 []

theorem opened_afterPut (version : Nat) : Opened (afterPut version Txn.begin) :=
  ⟨[(oneTable version, .call (.putRow 1 [some (.integer 7)]))], _,
    .step (Relisted.refl _) (.done (Relisted.refl _))⟩

/-- A row that was put and is deleted behind a savepoint comes back. -/
theorem rollback_exact_deleted_row :
    BehavesAlike (afterPut 1 Txn.begin)
      (((TxnCall.deleteRow 1 [.integer 7]).run (oneTable 1)
        (afterPut 1 Txn.begin).savepoint.2).2.rollbackTo
        (afterPut 1 Txn.begin).savepoint.1) := by
  refine (rollback_exact_iff (opened_afterPut 1) (.call (oneTable 1) _ (.refl _))).mpr ⟨?_, ?_⟩
  · have hall : ∀ e ∈ (afterPut 1 Txn.begin).writes.entries, e.2.entries ≠ [] := by decide +kernel
    intro t w hw
    exact hall ⟨t, w⟩ (AList.mem_lookup_iff.mp hw)
  · have hall : ∀ t ∈ ((TxnCall.deleteRow 1 [.integer 7]).run (oneTable 1)
        (afterPut 1 Txn.begin).savepoint.2).2.tableVersions.keys,
        ((afterPut 1 Txn.begin).tableVersions.lookup t).isSome = true := by decide +kernel
    intro t ht
    exact hall t (AList.lookup_isSome.mp ht)

/-- The version recorded by a put that was rolled back refuses a later commit: the table is
altered after the rollback, written again under its new version, and the commit fails. -/
theorem rolled_back_put_refuses_commit :
    Opened Txn.begin ∧ Ran Txn.begin.savepoint.2 (afterPut 1 Txn.begin.savepoint.2) ∧
      committed 2
        (afterPut 2 ((afterPut 1 Txn.begin.savepoint.2).rollbackTo Txn.begin.savepoint.1)) =
        .error (.conflict .tableAltered) ∧
      (committed 2 (afterPut 2 Txn.begin)).toOption.isSome = true ∧
      ¬ BehavesAlike Txn.begin
        ((afterPut 1 Txn.begin.savepoint.2).rollbackTo Txn.begin.savepoint.1) := by
  refine ⟨⟨[], [], .done (Relisted.refl _)⟩, .call (oneTable 1) _ (.refl _), by decide +kernel,
    by decide +kernel, fun h => ?_⟩
  have hnew := noNewVersion_of_behavesAlike h (fun t v hv => by cases hv) 1 (by decide +kernel)
  cases hnew

end RubixDb.Proof
