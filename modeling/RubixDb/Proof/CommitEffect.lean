import RubixDb.Proof.IndexEntries
import RubixDb.Proof.Rollback

/-!
# What a commit writes

The batch that `validate_and_build_ops` returns, looked at as the operations it leaves on
each key: it writes the tables of the write-set and nothing else, and for each row it has
what the transaction buffered for it (`lastOp_commit_row`).
-/

namespace RubixDb.Proof

open Lib List

variable {db : Db} {shape : TableShape} {indexes : List IndexRow} {pk : Bytes} {ops : RelOps}
    {checks : List UniqueCheck} {k : StoreKey} {limits : TxnLimits} {es : RelStore}
    {snapshot t : Nat} {fks : List ForeignKeyRow} {tx : Txn} {writes : TableWrites}

/-! ## Building one piece after the other -/

section Builds

/-- A loop that appends what `f` builds for each element. -/
structure Builds (build : List α → Except TxnError (RelOps × List UniqueCheck))
    (f : α → Except TxnError (RelOps × List UniqueCheck)) : Prop where
  nil : build [] = .ok ([], [])
  cons : ∀ a as, build (a :: as) =
    f a >>= fun x => build as >>= fun y => .ok (x.1 ++ y.1, x.2 ++ y.2)

theorem builds_rows : Builds (buildRows db shape indexes) fun e =>
    buildRow db shape indexes e.1 e.2.1 e.2.2 := ⟨rfl, fun _ _ => rfl⟩

theorem builds_tables : Builds (buildTables db tx) fun e => buildTable db tx e.1 e.2 :=
  ⟨rfl, fun _ _ => rfl⟩

variable {α : Type} {build : List α → Except TxnError (RelOps × List UniqueCheck)}
  {f : α → Except TxnError (RelOps × List UniqueCheck)} {as : List α}

/-- What is written is written by one of the pieces. -/
theorem Builds.mem (hb : Builds build f) (h : build as = .ok (ops, checks))
    (hk : Writes ops k) : ∃ a ∈ as, ∃ part c, f a = .ok (part, c) ∧ Writes part k := by
  induction as generalizing ops checks with
  | nil =>
    cases hb.nil.symm.trans h
    obtain ⟨v, hv⟩ := hk
    cases hv
  | cons a as ih =>
    rw [hb.cons] at h
    obtain ⟨first, hfirst, h⟩ := bind_eq_ok.mp h
    obtain ⟨rest, hrest, h⟩ := bind_eq_ok.mp h
    cases h
    obtain ⟨v, hv⟩ := hk
    rcases mem_append.mp hv with hv | hv
    · exact ⟨a, mem_cons_self, _, _, hfirst, v, hv⟩
    · obtain ⟨b, hb, hpart⟩ := ih hrest ⟨v, hv⟩
      exact ⟨b, mem_cons_of_mem _ hb, hpart⟩

/-- A key that only the piece under `i` writes. -/
theorem Builds.lastOp {ι β : Type} [DecidableEq ι] {i : ι} {g : β → Option (Option StoreValue)}
    {build : List (Sigma fun _ : ι => β) → Except TxnError (RelOps × List UniqueCheck)}
    {f : (Sigma fun _ : ι => β) → Except TxnError (RelOps × List UniqueCheck)}
    {as : List (Sigma fun _ : ι => β)} (hb : Builds build f)
    (hf : ∀ a part c, f a = .ok (part, c) → Lib.lastOp part k = if a.1 = i then g a.2 else none)
    (hnodup : as.NodupKeys) (h : build as = .ok (ops, checks)) :
    Lib.lastOp ops k = (as.dlookup i).bind g := by
  induction as generalizing ops checks with
  | nil =>
    cases hb.nil.symm.trans h
    rfl
  | cons a as ih =>
    rw [hb.cons] at h
    rw [nodupKeys_cons] at hnodup
    obtain ⟨first, hfirst, h⟩ := bind_eq_ok.mp h
    obtain ⟨rest, hrest, h⟩ := bind_eq_ok.mp h
    cases h
    rw [lastOp_append, ih hnodup.2 hrest, hf _ _ _ hfirst]
    by_cases hi : a.1 = i
    · -- no other piece is under it
      subst hi
      rw [dlookup_eq_none.mpr hnodup.1, if_pos rfl, dlookup_cons_eq]
      rfl
    · rw [if_neg hi, dlookup_cons_ne _ _ (Ne.symm hi), Option.or_none]

end Builds

/-! ## Which keys -/

variable {pkValues : List RelationalValue} {op : RowOp}
    {entries : List (Sigma fun _ : Nat => TableWrites)}

/-- What a buffered operation stores. -/
def rowValue (version : Nat) : RowOp → Option StoreValue
  | .put row => some (.row version row)
  | .delete => none

/-- A row is written at its key, and then its entries. -/
theorem buildRow_eq (h : buildRow db shape indexes pk pkValues op = .ok (ops, checks)) :
    ∃ old new maintenance,
      indexMaintenanceOps shape.table.tableId old new pk indexes = .ok maintenance ∧
      ops = (.row shape.table.tableId pk, rowValue shape.table.schemaVersion op) ::
        maintenance := by
  cases op with
  | put row =>
    obtain ⟨_, -, h⟩ := bind_eq_ok.mp h
    obtain ⟨maintenance, hm, h⟩ := bind_eq_ok.mp h
    obtain ⟨_, -, h⟩ := bind_eq_ok.mp h
    obtain ⟨rfl, -⟩ := Prod.mk.inj (Except.ok.inj h)
    exact ⟨_, _, maintenance, hm, rfl⟩
  | delete =>
    obtain ⟨maintenance, hm, h⟩ := bind_eq_ok.mp h
    obtain ⟨rfl, -⟩ := Prod.mk.inj (Except.ok.inj h)
    exact ⟨_, _, maintenance, hm, rfl⟩

theorem buildRow_writes (h : buildRow db shape indexes pk pkValues op = .ok (ops, checks))
    (hk : Writes ops k) : onTable shape.table.tableId k := by
  obtain ⟨old, new, maintenance, hm, rfl⟩ := buildRow_eq h
  obtain ⟨w, hw⟩ := hk
  rcases mem_cons.mp hw with heq | hw
  · rw [(Prod.mk.inj heq).1]
    exact rfl
  · obtain ⟨id, body, rfl⟩ := onTable_of_indexMaintenanceOps hm ⟨w, hw⟩
    exact rfl

theorem buildTable_writes
    (h : buildTable (dbOf limits es snapshot fks) tx t writes = .ok (ops, checks))
    (hk : Writes ops k) : onTable t k := by
  obtain ⟨shape, hshape, h⟩ := bind_eq_ok.mp h
  have htable : shape.table.tableId = t := tableId_of_tableAt (resolveTable_eq_ok.mp hshape)
  split_ifs at h
  obtain ⟨e, -, part, c, hpart, hw⟩ := builds_rows.mem h hk
  exact htable ▸ buildRow_writes hpart hw

/-- What a commit has been through when it succeeds. -/
theorem validateAndBuildOps_ok (h : validateAndBuildOps limits es snapshot fks tx = .ok ops) :
    ∃ checks, buildTables (dbOf limits es snapshot fks) tx
        (tx.writes.entries.mergeSort fun a b => a.1 ≤ b.1) = .ok (ops, checks) ∧
      rowsFresh es snapshot tx = true ∧
      validateForeignKeys (dbOf limits es snapshot fks) tx fks = .ok () ∧
      claimsApart [] checks = true ∧ checkUnique es tx checks = .ok () := by
  obtain ⟨⟨built, checks⟩, hbuilt, h⟩ := bind_eq_ok.mp h
  simp only at h
  split at h
  · cases h
  · rename_i hfresh
    obtain ⟨⟨⟩, hfk, h⟩ := bind_eq_ok.mp h
    split_ifs at h with hapart
    obtain ⟨⟨⟩, hunique, h⟩ := bind_eq_ok.mp h
    cases h
    exact ⟨checks, hbuilt, by simpa using hfresh, hfk, by simpa using hapart, hunique⟩

/-- **A commit writes the tables of its write-set**, and nothing of the catalog. -/
theorem commit_writes (h : validateAndBuildOps limits es snapshot fks tx = .ok ops)
    (hk : Writes ops k) : ∃ t ∈ tx.writes.keys, onTable t k := by
  obtain ⟨checks, hbuilt, -⟩ := validateAndBuildOps_ok h
  obtain ⟨e, he, part, c, hpart, hw⟩ := builds_tables.mem hbuilt hk
  exact ⟨e.1, mem_map_of_mem (mem_mergeSort.mp he), buildTable_writes hpart hw⟩

/-! ## Rows -/

theorem lastOp_buildRow (h : buildRow db shape indexes pk pkValues op = .ok (ops, checks))
    (pk' : Bytes) :
    lastOp ops (.row shape.table.tableId pk') =
      if pk = pk' then some (rowValue shape.table.schemaVersion op) else none := by
  obtain ⟨old, new, maintenance, hm, rfl⟩ := buildRow_eq h
  have hnone : lastOp maintenance (.row shape.table.tableId pk') = none := by
    rw [lastOp_eq_none_iff]
    intro hw
    obtain ⟨id, body, heq⟩ := onTable_of_indexMaintenanceOps hm hw
    cases heq
  rw [lastOp_cons, hnone]
  simp

/-- What holds of a table that a commit has written: it is there, as it was when it was
first written. -/
theorem buildTable_ok
    (h : buildTable (dbOf limits es snapshot fks) tx t writes = .ok (ops, checks)) :
    ∃ shape, tableAt es (topSeq es) t = some shape ∧
      (∀ v, tx.tableVersions.lookup t = some v → v = shape.table.schemaVersion) ∧
      buildRows (dbOf limits es snapshot fks) shape
        (maintainedIndexes (dbOf limits es snapshot fks) t) writes.entries = .ok (ops, checks) := by
  obtain ⟨shape, hshape, h⟩ := bind_eq_ok.mp h
  split_ifs at h with hversion
  refine ⟨shape, resolveTable_eq_ok.mp hshape, fun v hv => ?_, h⟩
  rw [hv] at hversion
  simpa using hversion

/-- The version rows of a table are written with. -/
def versionNow (es : RelStore) (t : Nat) : Nat :=
  ((tableAt es (topSeq es) t).map (·.table.schemaVersion)).getD 0

theorem lastOp_buildTable
    (h : buildTable (dbOf limits es snapshot fks) tx t writes = .ok (ops, checks)) (pk : Bytes) :
    lastOp ops (.row t pk) = (writes.lookup pk).map fun v => rowValue (versionNow es t) v.2 := by
  obtain ⟨shape, hshape, -, hrows⟩ := buildTable_ok h
  have hlast := builds_rows.lastOp (g := fun v => some (rowValue shape.table.schemaVersion v.2))
    (fun _ _ _ hrow => lastOp_buildRow hrow pk) writes.nodupKeys hrows
  rw [tableId_of_tableAt hshape] at hlast
  rw [hlast, versionNow, hshape]
  exact (Option.map_eq_bind ..).symm

/-- **A commit writes what was buffered**, row by row. -/
theorem lastOp_commit_row (h : validateAndBuildOps limits es snapshot fks tx = .ok ops) (t : Nat)
    (pk : Bytes) :
    lastOp ops (.row t pk) = (opAt tx.writes t pk).map fun v => rowValue (versionNow es t) v.2 := by
  obtain ⟨checks, hbuilt, -⟩ := validateAndBuildOps_ok h
  have hperm := mergeSort_perm tx.writes.entries fun a b => a.1 ≤ b.1
  have hnodup : (tx.writes.entries.mergeSort fun a b => a.1 ≤ b.1).NodupKeys :=
    (perm_nodupKeys hperm).mpr tx.writes.nodupKeys
  rw [builds_tables.lastOp (i := t)
    (g := fun w : TableWrites => (w.lookup pk).map fun v => rowValue (versionNow es t) v.2) ?_
    hnodup hbuilt, perm_dlookup t hnodup hperm, opAt]
  · show (tx.writes.lookup t).bind _ = _
    cases tx.writes.lookup t with
    | none => rfl
    | some w => rfl
  · intro e part c hpart
    split
    · rename_i heq
      rw [← heq]
      exact lastOp_buildTable hpart pk
    · -- the other table's operations are on its own keys
      rw [lastOp_eq_none_iff]
      exact fun hw => absurd (buildTable_writes hpart hw).symm ‹_›

theorem mem_writtenRows : .row t pk ∈ writtenRows tx ↔ (opAt tx.writes t pk).isSome = true := by
  rw [writtenRows, mem_flatMap, opAt]
  constructor
  · rintro ⟨⟨t', w⟩, hw, hk⟩
    obtain ⟨⟨pk', v⟩, hv, heq⟩ := mem_map.mp hk
    cases heq
    rw [AList.mem_lookup_iff.mpr hw, Option.bind_some, AList.mem_lookup_iff.mpr hv]
    rfl
  · intro h
    obtain ⟨v, hv⟩ := Option.isSome_iff_exists.mp h
    obtain ⟨w, hw, hv⟩ := Option.bind_eq_some_iff.mp hv
    exact ⟨⟨t, w⟩, AList.mem_lookup_iff.mp hw,
      mem_map.mpr ⟨⟨pk, v⟩, AList.mem_lookup_iff.mp hv, rfl⟩⟩

/-- The rows a commit writes are as its snapshot sees them. -/
theorem fresh_of_commit (h : validateAndBuildOps limits es snapshot fks tx = .ok ops)
    (hw : Writes ops (.row t pk)) : readAt es (.row t pk) snapshot = readNow es (.row t pk) := by
  obtain ⟨checks, -, hfresh, -⟩ := validateAndBuildOps_ok h
  have hmem : .row t pk ∈ writtenRows tx := by
    rw [mem_writtenRows, ← Option.isSome_map, ← lastOp_commit_row h t pk, Option.isSome_iff_ne_none,
      Ne, lastOp_eq_none_iff, not_not]
    exact hw
  rw [rowsFresh, all_eq_true] at hfresh
  exact of_decide_eq_true (hfresh _ hmem)

end RubixDb.Proof
