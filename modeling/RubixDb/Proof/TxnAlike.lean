import RubixDb.Proof.Rollback

/-!
# What a caller sees of a transaction

Two transactions behave alike when no call and no commit tells them apart, whatever the
catalog and the rows have become. The source's maps have no order of their own, so the rest
of a transaction may find them listed in any order before each call.

What the calls do does not depend on the write version or on the cached overlays
(`closed_alike`), so a run of one transaction is matched call by call by a run of the other
(`Continues.alike`). A rollback brings back everything but the recorded versions and the
empty maps, and nobody can tell the difference when there are none of those.
-/

namespace RubixDb.Proof

open Lib

variable {a b t tx s : Txn}

/-! ## Observations -/

variable {c last : Txn} {opened : List Savepoint} {calls : List (Db × LaterCall)}
    {results : List TxnResult} {v w : TableWrites} {α : Type} {db : Db}

/-- The same transaction, with its maps listed in another order. -/
structure Relisted (a b : Txn) : Prop where
  tables : ∀ t, (a.writes.lookup t).isSome = (b.writes.lookup t).isSome
  ops : ∀ t pk, opAt a.writes t pk = opAt b.writes t pk
  versions : ∀ t, a.tableVersions.lookup t = b.tableVersions.lookup t
  opCount : a.opCount = b.opCount
  byteCount : a.byteCount = b.byteCount
  journal : a.journal = b.journal
  writeVersion : a.writeVersion = b.writeVersion
  overlayCache : a.overlayCache = b.overlayCache

/-- What the rest of a transaction can return: each call finds its own database and may
find the maps listed in another order; `last` is what is committed in the end. -/
inductive Continues :
    Txn → List Savepoint → List (Db × LaterCall) → List TxnResult → Txn → Prop where
  | done {tx last : Txn} {opened : List Savepoint} : Relisted tx last →
    Continues tx opened [] [] last
  | step {tx tx' last : Txn} {opened : List Savepoint} {db : Db} {call : LaterCall}
      {calls : List (Db × LaterCall)} {results : List TxnResult} : Relisted tx tx' →
      Continues (call.run db tx' opened).2.1 (call.run db tx' opened).2.2 calls results last →
      Continues tx opened ((db, call) :: calls) ((call.run db tx' opened).1 :: results) last

/-- No caller can tell the two apart. -/
structure BehavesAlike (a b : Txn) : Prop where
  getRow : ∀ db t pk, a.getRow db t pk = b.getRow db t pk
  overlayFor : ∀ t, (a.overlayFor t).1 = (b.overlayFor t).1
  opCount : a.opCount = b.opCount
  byteCount : a.byteCount = b.byteCount
  later : ∀ opened calls results limits es snapshot fks outcome,
    (∃ last, Continues a opened calls results last ∧
        last.commitOps limits es snapshot fks = outcome) ↔
      ∃ last, Continues b opened calls results last ∧
        last.commitOps limits es snapshot fks = outcome

/-! ## Listing order -/

theorem Relisted.refl (a : Txn) : Relisted a a :=
  ⟨fun _ => rfl, fun _ _ => rfl, fun _ => rfl, rfl, rfl, rfl, rfl, rfl⟩

theorem Relisted.trans (h : Relisted a b) (h' : Relisted b c) : Relisted a c where
  tables t := (h.tables t).trans (h'.tables t)
  ops t pk := (h.ops t pk).trans (h'.ops t pk)
  versions t := (h.versions t).trans (h'.versions t)
  opCount := h.opCount.trans h'.opCount
  byteCount := h.byteCount.trans h'.byteCount
  journal := h.journal.trans h'.journal
  writeVersion := h.writeVersion.trans h'.writeVersion
  overlayCache := h.overlayCache.trans h'.overlayCache

theorem Relisted.symm (h : Relisted a b) : Relisted b a where
  tables t := (h.tables t).symm
  ops t pk := (h.ops t pk).symm
  versions t := (h.versions t).symm
  opCount := h.opCount.symm
  byteCount := h.byteCount.symm
  journal := h.journal.symm
  writeVersion := h.writeVersion.symm
  overlayCache := h.overlayCache.symm

theorem Continues.of_relisted (h : Relisted a b)
    (hc : Continues b opened calls results last) : Continues a opened calls results last := by
  cases hc with
  | done hr => exact .done (h.trans hr)
  | step hr hc => exact .step (h.trans hr) hc

theorem perm_of_lookup (h : ∀ pk, v.lookup pk = w.lookup pk) : v.entries.Perm w.entries :=
  List.lookup_ext v.nodupKeys w.nodupKeys fun pk op => by
    have := h pk
    rw [AList.lookup, AList.lookup] at this
    rw [this]

/-- Sorting by a key that tells the members apart forgets the order they came in. -/
theorem mergeSort_eq_of_perm {key : α → Bytes} {l l' : List α} (hperm : l.Perm l')
    (hkey : ∀ a ∈ l, ∀ b ∈ l, key a = key b → a = b) :
    l.mergeSort (fun a b => key a ≤ key b) = l'.mergeSort (fun a b => key a ≤ key b) := by
  have hsorted : ∀ m : List α,
      (m.mergeSort (fun a b => key a ≤ key b)).Pairwise fun a b => decide (key a ≤ key b) = true :=
    List.pairwise_mergeSort
      (fun a b c hab hbc => by simpa using le_trans (of_decide_eq_true hab) (of_decide_eq_true hbc))
      (fun a b => by simpa using le_total (key a) (key b))
  refine List.Perm.eq_of_pairwise (fun a b ha hb hab hba => ?_) (hsorted l) (hsorted l') ?_
  · exact hkey a (List.mem_mergeSort.mp ha) b (hperm.mem_iff.mpr (List.mem_mergeSort.mp hb))
      (le_antisymm (of_decide_eq_true hab) (of_decide_eq_true hba))
  · exact (List.mergeSort_perm l _).trans (hperm.trans (List.mergeSort_perm l' _).symm)

/-- **An overlay does not depend on the order of the map**: it is sorted by key. -/
theorem overlayOf_congr (h : ∀ pk, v.lookup pk = w.lookup pk) : overlayOf v = overlayOf w := by
  refine mergeSort_eq_of_perm ((perm_of_lookup h).map _) fun a ha b hb hab => ?_
  obtain ⟨e, he, rfl⟩ := List.mem_map.mp ha
  obtain ⟨f, hf, rfl⟩ := List.mem_map.mp hb
  rw [v.nodupKeys.eq_of_fst_eq he hf hab]

theorem lookup_of_opAt {v w : WriteSet} {t : Nat} {x y : TableWrites}
    (h : ∀ pk, opAt v t pk = opAt w t pk) (hv : v.lookup t = some x) (hw : w.lookup t = some y)
    (pk : Bytes) : x.lookup pk = y.lookup pk := by
  have := h pk
  rwa [opAt, opAt, hv, hw] at this

theorem Relisted.sound (h : Relisted a b) (hs : Txn.Sound a) : Txn.Sound b := by
  intro t version overlay hl
  rw [← h.overlayCache] at hl
  rw [← h.writeVersion]
  refine ⟨(hs t version overlay hl).1, fun hv w hw hne => ?_⟩
  have hsome := h.tables t
  rw [hw] at hsome
  obtain ⟨x, hx⟩ := Option.isSome_iff_exists.mp hsome
  have hsame := lookup_of_opAt (h.ops t) hx hw
  rw [← overlayOf_congr hsame]
  refine (hs t version overlay hl).2 hv x hx fun hnil => hne ?_
  have hperm := perm_of_lookup hsame
  rw [hnil] at hperm
  exact hperm.symm.eq_nil

theorem Relisted.overlay (h : Relisted a b) (t : Nat) :
    (a.own t).map overlayOf = (b.own t).map overlayOf := by
  have hsome := h.tables t
  rw [Txn.own, Txn.own]
  cases hx : a.writes.lookup t with
  | none =>
    rw [hx] at hsome
    have hy : b.writes.lookup t = none := by simpa using hsome.symm
    rw [hy]
  | some x =>
    rw [hx] at hsome
    obtain ⟨y, hy⟩ := Option.isSome_iff_exists.mp hsome.symm
    have hsame := lookup_of_opAt (h.ops t) hx hy
    have hempty : x.entries.isEmpty = y.entries.isEmpty := by
      rw [Bool.eq_iff_iff, List.isEmpty_iff_length_eq_zero, List.isEmpty_iff_length_eq_zero,
        (perm_of_lookup hsame).length_eq]
    rw [hy, Option.filter_some, Option.filter_some, hempty]
    split
    · exact congrArg some (overlayOf_congr hsame)
    · rfl

/-! ## What a call does not see -/

/-- Equal up to the write version and the cached overlays. -/
structure Alike (a b : Txn) : Prop where
  writes : a.writes = b.writes
  opCount : a.opCount = b.opCount
  byteCount : a.byteCount = b.byteCount
  tableVersions : a.tableVersions = b.tableVersions
  journal : a.journal = b.journal

theorem Alike.touched (h : Alike a b) (t : Nat) : Alike (Txn.touched a t) (Txn.touched b t) :=
  ⟨by simp only [Txn.touched, h.writes], h.opCount, h.byteCount, h.tableVersions, h.journal⟩

theorem Alike.journaled (h : Alike a b) (t : Nat) (pk : Bytes) (pkValues : List RelationalValue)
    (op : RowOp) (n : Nat) :
    Alike (Txn.journaled a t pk pkValues op n) (Txn.journaled b t pk pkValues op n) where
  writes := by simp only [Txn.journaled, Txn.recorded, h.writes]
  opCount := by simp only [Txn.journaled, h.writes, h.opCount]
  byteCount := by simp only [Txn.journaled, h.byteCount]
  tableVersions := h.tableVersions
  journal := by simp only [Txn.journaled, h.writes, h.journal]

theorem closed_alike (db : Db) : Closed db fun _ x => Blind Alike x := by
  refine Composes.closed ⟨.pure, .throw, .bind,
    fun hsame h => Blind.get_bind (fun s t hst => hsame s t hst.writes) h⟩ ?_ ?_
  · intro t pk pkValues op n a b h
    rw [recordOp_eq, recordOp_eq, h.writes, h.opCount, h.byteCount]
    split
    · exact ⟨rfl, h.touched t⟩
    · split
      · exact ⟨rfl, h.touched t⟩
      · exact ⟨rfl, h.journaled t pk pkValues op n⟩
  · intro t v a b h
    refine ⟨rfl, ?_⟩
    simp only [h.tableVersions]
    split
    · exact h
    · exact ⟨h.writes, h.opCount, h.byteCount, rfl, h.journal⟩

theorem runTxn_alike {x : TxnM α} (hx : Blind Alike x) (h : Alike a b) :
    (runTxn x a).1 = (runTxn x b).1 ∧ Alike (runTxn x a).2 (runTxn x b).2 := by
  have hout := hx a b h
  rw [runTxn, runTxn]
  cases hxa : x a with
  | ok r s =>
    cases hxb : x b with
    | ok r' s' => rw [hxa, hxb] at hout; exact ⟨congrArg Except.ok hout.1, hout.2⟩
    | error e s' => rw [hxa, hxb] at hout; exact hout.elim
  | error e s =>
    cases hxb : x b with
    | ok r' s' => rw [hxa, hxb] at hout; exact hout.elim
    | error e' s' => rw [hxa, hxb] at hout; exact ⟨congrArg Except.error hout.1, hout.2⟩

theorem Alike.own (h : Alike a b) (t : Nat) : a.own t = b.own t := by
  rw [Txn.own, Txn.own, h.writes]

theorem Alike.overlayFor (h : Alike a b) (t : Nat) :
    Alike (a.overlayFor t).2 (b.overlayFor t).2 := by
  obtain ⟨hw, ho, hb, hv, hj, -⟩ := overlayFor_fields a t
  obtain ⟨hw', ho', hb', hv', hj', -⟩ := overlayFor_fields b t
  constructor
  · rw [hw, hw', h.writes]
  · rw [ho, ho', h.opCount]
  · rw [hb, hb', h.byteCount]
  · rw [hv, hv', h.tableVersions]
  · rw [hj, hj', h.journal]

theorem call_alike (h : Alike a b) (ha : Txn.Sound a) (hb : Txn.Sound b) (db : Db)
    (call : TxnCall) :
    (call.run db a).1 = (call.run db b).1 ∧ Alike (call.run db a).2 (call.run db b).2 := by
  cases call with
  | getRow t pk => exact ⟨congrArg TxnResult.row (congrFun₂ (getRow_congr h.writes) t pk), h⟩
  | overlayFor t =>
    refine ⟨congrArg TxnResult.overlay ?_, h.overlayFor t⟩
    rw [overlayFor_eq ha, overlayFor_eq hb, h.own]
  | putRow t row =>
    obtain ⟨hr, hs⟩ := runTxn_alike ((closed_alike db).putRow t row) h
    exact ⟨congrArg TxnResult.written hr, hs⟩
  | deleteRow t pk =>
    obtain ⟨hr, hs⟩ := runTxn_alike ((closed_alike db).deleteRow t pk) h
    exact ⟨congrArg TxnResult.written hr, hs⟩
  | applyRowUpdates t updates =>
    obtain ⟨hr, hs⟩ := runTxn_alike ((closed_alike db).applyRowUpdates t updates) h
    exact ⟨congrArg TxnResult.written hr, hs⟩
  | enforceForeignKeys t changes =>
    obtain ⟨hr, hs⟩ := runTxn_alike ((closed_alike db).enforceForeignKeys t changes) h
    exact ⟨congrArg TxnResult.cascaded hr, hs⟩

theorem Alike.rollbackTo (h : Alike a b) (sp : Savepoint) :
    Alike (a.rollbackTo sp) (b.rollbackTo sp) := by
  rw [Txn.rollbackTo, Txn.rollbackTo, h.journal]
  cases b.journal with
  | none => exact h
  | some j => exact ⟨by simp only [h.writes], rfl, rfl, h.tableVersions, rfl⟩

theorem sound_rollbackTo (h : Txn.Sound tx) (sp : Savepoint) : Txn.Sound (tx.rollbackTo sp) := by
  rw [Txn.rollbackTo]
  cases tx.journal with
  | none => exact h
  | some j => exact sound_of_version_lt h rfl (Nat.lt_succ_self _)

theorem Alike.releaseSavepoint (h : Alike a b) (sp : Savepoint) :
    Alike (a.releaseSavepoint sp) (b.releaseSavepoint sp) := by
  rw [Txn.releaseSavepoint, Txn.releaseSavepoint]
  split
  · exact ⟨h.writes, h.opCount, h.byteCount, h.tableVersions, rfl⟩
  · exact h

theorem sound_laterCall (h : Txn.Sound tx) (db : Db) (opened : List Savepoint)
    (call : LaterCall) : Txn.Sound (call.run db tx opened).2.1 := by
  cases call with
  | call c => exact (follows_call db tx c).sound h
  | savepoint => exact h
  | release =>
    cases opened with
    | nil => exact h
    | cons sp rest =>
      show Txn.Sound (tx.releaseSavepoint sp)
      rw [Txn.releaseSavepoint]
      split
      · exact h
      · exact h
  | rollback =>
    cases opened with
    | nil => exact h
    | cons sp rest => exact sound_rollbackTo h sp

/-- One call of the rest, from transactions that differ in what no call sees. -/
theorem laterCall_alike (h : Alike a b) (ha : Txn.Sound a) (hb : Txn.Sound b) (db : Db)
    (opened : List Savepoint) (call : LaterCall) :
    (call.run db a opened).1 = (call.run db b opened).1 ∧
      Alike (call.run db a opened).2.1 (call.run db b opened).2.1 ∧
      (call.run db a opened).2.2 = (call.run db b opened).2.2 := by
  cases call with
  | call c => exact ⟨(call_alike h ha hb db c).1, (call_alike h ha hb db c).2, rfl⟩
  | savepoint =>
    refine ⟨rfl, ⟨h.writes, h.opCount, h.byteCount, h.tableVersions, ?_⟩, ?_⟩
    · show some (a.journal.getD []) = some (b.journal.getD [])
      rw [h.journal]
    · show a.savepoint.1 :: opened = b.savepoint.1 :: opened
      rw [Txn.savepoint, Txn.savepoint, h.journal, h.opCount, h.byteCount]
  | release =>
    cases opened with
    | nil => exact ⟨rfl, h, rfl⟩
    | cons sp rest => exact ⟨rfl, h.releaseSavepoint sp, rfl⟩
  | rollback =>
    cases opened with
    | nil => exact ⟨rfl, h, rfl⟩
    | cons sp rest => exact ⟨rfl, h.rollbackTo sp, rfl⟩

/-- `b` with its maps listed as those of `a` are. -/
def Txn.listedAs (b a : Txn) : Txn :=
  { b with writes := a.writes, tableVersions := a.tableVersions }

theorem Alike.listedAs {a' : Txn} (h : Alike a b) (hr : Relisted a a') :
    Relisted b (Txn.listedAs b a') ∧ Alike a' (Txn.listedAs b a') := by
  refine ⟨⟨fun t => ?_, fun t pk => ?_, fun t => ?_, rfl, rfl, rfl, rfl, rfl⟩,
    ⟨rfl, ?_, ?_, rfl, ?_⟩⟩
  · rw [← h.writes]; exact hr.tables t
  · rw [← h.writes]; exact hr.ops t pk
  · rw [← h.tableVersions]; exact hr.versions t
  · exact hr.opCount.symm.trans h.opCount
  · exact hr.byteCount.symm.trans h.byteCount
  · exact hr.journal.symm.trans h.journal

/-- **A run of the rest is matched call by call.** -/
theorem Continues.alike (hc : Continues a opened calls results last) (h : Alike a b)
    (ha : Txn.Sound a) (hb : Txn.Sound b) :
    ∃ last', Continues b opened calls results last' ∧ Alike last last' := by
  induction hc generalizing b with
  | done hr =>
    obtain ⟨hrb, hal⟩ := h.listedAs hr
    exact ⟨_, .done hrb, hal⟩
  | @step tx tx' last opened db call calls results hr _ ih =>
    obtain ⟨hrb, hal⟩ := h.listedAs hr
    have ha' := hr.sound ha
    have hb' := hrb.sound hb
    obtain ⟨hres, hnext, hopen⟩ := laterCall_alike hal ha' hb' db opened call
    obtain ⟨last', hc', hlast⟩ := ih hnext (sound_laterCall ha' db opened call)
      (sound_laterCall hb' db opened call)
    refine ⟨last', ?_, hlast⟩
    rw [hres]
    rw [hopen] at hc'
    exact .step hrb hc'

/-! ## What a commit sees -/

theorem buildTables_congr (hv : s.tableVersions = t.tableVersions) :
    buildTables db s = buildTables db t := by
  funext entries
  induction entries with
  | nil => rfl
  | cons e entries ih => simp only [buildTables, buildTable, hv, ih]

theorem validateForeignKeys_congr (hw : s.writes = t.writes) :
    validateForeignKeys db s = validateForeignKeys db t := by
  have href : validateReferencing db s = validateReferencing db t := by
    funext fk entries
    induction entries with
    | nil => rfl
    | cons e entries ih => simp only [validateReferencing, referencedExists_congr hw, ih]
  have hgone : goneKeys db s = goneKeys db t := by
    funext fk keys
    induction keys with
    | nil => rfl
    | cons k keys ih => simp only [goneKeys, referencedExists_congr hw, ih]
  have hparent : validateReferenced db s = validateReferenced db t := by
    funext
    simp only [validateReferenced, hgone, childrenOf_congr hw]
  funext fks
  induction fks with
  | nil => rfl
  | cons fk fks ih => simp only [validateForeignKeys, validateForeignKey, hw, href, hparent, ih]

theorem checkUnique_congr {es : RelStore} (hw : s.writes = t.writes) :
    checkUnique es s = checkUnique es t := by
  have hentries : checkEntries s = checkEntries t := by
    funext check bodies
    induction bodies with
    | nil => rfl
    | cons b bodies ih => simp only [checkEntries, entryIsSelfVacated, hw, ih]
  funext checks
  induction checks with
  | nil => rfl
  | cons c checks ih => simp only [checkUnique, hentries, ih]

theorem Alike.commitOps (h : Alike a b) (limits : TxnLimits) (es : RelStore) (snapshot : Nat)
    (fks : List ForeignKeyRow) :
    a.commitOps limits es snapshot fks = b.commitOps limits es snapshot fks := by
  simp only [Txn.commitOps, validateAndBuildOps, rowsFresh, writtenRows, h.writes,
    buildTables_congr h.tableVersions, validateForeignKeys_congr h.writes,
    checkUnique_congr h.writes]
  rfl

/-! ## A rollback that is exact -/

/-- Every table of the write-set has something buffered. -/
def NoEmptyTable (writes : WriteSet) : Prop := ∀ t w, writes.lookup t = some w → w.entries ≠ []

theorem isSome_lookup_iff {writes : WriteSet} (h : NoEmptyTable writes) (t : Nat) :
    (writes.lookup t).isSome ↔ ∃ pk, (opAt writes t pk).isSome := by
  constructor
  · intro hs
    obtain ⟨w, hw⟩ := Option.isSome_iff_exists.mp hs
    obtain ⟨e, he⟩ := List.exists_mem_of_ne_nil _ (h t w hw)
    refine ⟨e.1, ?_⟩
    rw [opAt, hw, Option.bind_some, AList.lookup_isSome]
    exact List.mem_map_of_mem he
  · rintro ⟨pk, hpk⟩
    rw [opAt] at hpk
    cases hw : writes.lookup t with
    | none => rw [hw] at hpk; cases hpk
    | some w => rfl

theorem noEmptyTable_retainNonEmpty (writes : WriteSet) : NoEmptyTable (retainNonEmpty writes) := by
  intro t w hw
  rw [lookup_retainNonEmpty] at hw
  have := (Option.filter_eq_some_iff.mp hw).2
  simpa using this

/-- The versions recorded after a savepoint are of tables that had one. -/
def NoNewVersion (tx b : Txn) : Prop :=
  ∀ t, (b.tableVersions.lookup t).isSome → (tx.tableVersions.lookup t).isSome

theorem opAt_rollbackTo (h : Follows tx.savepoint.2 b) (t : Nat) (pk : Bytes) :
    opAt (b.rollbackTo tx.savepoint.1).writes t pk = opAt tx.writes t pk := by
  obtain ⟨more, -, hw, heq⟩ := rollbackTo_eq h
  rw [heq]
  exact (opAt_retainNonEmpty _ t pk).trans (hw t pk)

/-- **A rollback restores the transaction** up to the order of its maps, the write version
and the cached overlays. -/
theorem rollbackTo_restores (h : Follows tx.savepoint.2 b) (hempty : NoEmptyTable tx.writes)
    (hnew : NoNewVersion tx b) : ∃ c, Relisted (b.rollbackTo tx.savepoint.1) c ∧ Alike tx c := by
  obtain ⟨more, -, hw, heq⟩ := rollbackTo_eq h
  refine ⟨Txn.listedAs (b.rollbackTo tx.savepoint.1) tx, ?_, ?_⟩
  · refine ⟨fun t => ?_, opAt_rollbackTo h, fun t => ?_, rfl, rfl, rfl, rfl, rfl⟩
    · rw [Bool.eq_iff_iff]
      show _ ↔ (tx.writes.lookup t).isSome = true
      rw [isSome_lookup_iff hempty t]
      have hc : NoEmptyTable (b.rollbackTo tx.savepoint.1).writes := by
        rw [heq]
        exact noEmptyTable_retainNonEmpty _
      rw [isSome_lookup_iff hc t]
      simp only [opAt_rollbackTo h]
    · show (b.rollbackTo tx.savepoint.1).tableVersions.lookup t = tx.tableVersions.lookup t
      rw [heq]
      cases hv : tx.tableVersions.lookup t with
      | some v => exact h.versions t v hv
      | none =>
        by_contra hb
        have := hnew t (Option.isSome_iff_ne_none.mpr hb)
        rw [hv] at this
        cases this
  · rw [heq]
    exact ⟨rfl, rfl, rfl, rfl, rfl⟩

theorem getRow_of_opAt (h : ∀ t pk, opAt a.writes t pk = opAt b.writes t pk) (db : Db) (t : Nat)
    (pk : List RelationalValue) : a.getRow db t pk = b.getRow db t pk := by
  simp only [Txn.getRow, ownOp_eq, h]

theorem behavesAlike_of_restores (ha : Txn.Sound a) (hb : Txn.Sound b) (hr : Relisted b c)
    (h : Alike a c) : BehavesAlike a b := by
  have hc := hr.sound hb
  constructor
  · intro db t pk
    rw [getRow_congr h.writes, getRow_of_opAt hr.ops]
  · intro t
    rw [overlayFor_eq ha, overlayFor_eq hb, h.own, hr.overlay]
  · rw [h.opCount, hr.opCount]
  · rw [h.byteCount, hr.byteCount]
  · intro opened calls results limits es snapshot fks outcome
    constructor
    · rintro ⟨last, hcont, hout⟩
      obtain ⟨last', hcont', hal⟩ := hcont.alike h ha hc
      exact ⟨last', hcont'.of_relisted hr, by rw [← hal.commitOps, hout]⟩
    · rintro ⟨last, hcont, hout⟩
      obtain ⟨last', hcont', hal⟩ := (hcont.of_relisted hr.symm).alike ⟨h.writes.symm,
        h.opCount.symm, h.byteCount.symm, h.tableVersions.symm, h.journal.symm⟩ hc ha
      exact ⟨last', hcont', by rw [← hal.commitOps, hout]⟩

end RubixDb.Proof
