import RubixDb.Proof.IndexEntries
import RubixDb.Proof.TxnOps

/-!
# Direct writes and index entries

Whether the entries of an index are those of the rows is said of the log, one batch after
the other: the store is the log read back, for the keys of a table that no call is at work
on. A batch keeps the entries right when the rows it replaces are the ones its call has
read, as far as the indexes see them, and when of several rows under one key only the last
leaves an entry (`StillCurrent`). Nothing in the source makes sure of either.
-/

namespace RubixDb.TableStore

open Lib

/-! ## The statement -/

/-- The entries that the current rows call for. -/
def derivedEntries (es : RelStore) (tableId : Nat) (index : IndexRow) : List StoreKey :=
  (rowKeys es tableId).filterMap fun pk => entryOf tableId index (rowNow es tableId pk) pk

/-- The entries of every maintained index are those of the rows. -/
def Exact (catalog : TableCatalog) (es : RelStore) (tableId : Nat) : Prop :=
  ∀ i ∈ maintainedIndexes catalog tableId, ∀ body,
    body ∈ entriesAt es (topSeq es) tableId i.indexId ↔
      .entry tableId i.indexId body ∈ derivedEntries es tableId i

/-- The key values have the types of the key columns, which `delete_row` does not check. -/
def keyTyped (shape : TableShape) (pkValues : List RelationalValue) : Bool :=
  (shape.table.pkOrdinals.zip pkValues).all fun p =>
    shape.columns.any fun c =>
      c.ordinal = p.1 ∧ (relationalTypeFromColumn c).toOption = some p.2.valueType

/-- The last row of a call under the key of `row`. -/
def lastUnder (done : List PreparedRow) (row : PreparedRow) : PreparedRow :=
  (done.reverse.find? fun d => d.encodedPk = row.encodedPk).getD row

/-- What a call has read is still current when it writes: in each index, the entry of the
logged row, like that of any row of the call, is the entry of the last row of the call
under that key or the one it removes; and what it removes is an entry of that key. -/
def StillCurrent (catalog : TableCatalog) (log : RelStore) (shape : TableShape)
    (done : List PreparedRow) : Prop :=
  ∀ i ∈ maintainedIndexes catalog shape.table.tableId, ∀ d ∈ done,
    let entry := fun row => entryOf shape.table.tableId i row d.encodedPk
    let logged := entry (rowNow log shape.table.tableId d.encodedPk)
    (∀ x ∈ [logged, entry d.new],
      x = none ∨ x = entry (lastUnder done d).new ∨ x = entry (lastUnder done d).old) ∧
    (entry d.old = none ∨ entry d.old = logged ∨ keyTyped shape d.pkValues = true)

instance (catalog : TableCatalog) (log : RelStore) (shape : TableShape) (done : List PreparedRow) :
    Decidable (StillCurrent catalog log shape done) :=
  inferInstanceAs
    (Decidable (∀ i ∈ maintainedIndexes catalog shape.table.tableId, ∀ d ∈ done, _ ∧ _))

abbrev Writers := System Nat StoreKey StoreValue Unit Pc

/-- The rows of a call that has read all of them. -/
def Pc.ready : Pc → Option (TableShape × List PreparedRow)
  | .reading shape [] done => some (shape, done)
  | _ => none

/-- Every batch is submitted while what its call has read is current. -/
def Current (catalog : TableCatalog) (w : Writers) : Act Action → Prop
  | .step p .next => ∀ x ∈ (w.procs p).pc.ready, StillCurrent catalog (replay w.wal) x.1 x.2
  | _ => True

instance (catalog : TableCatalog) (w : Writers) (a : Act Action) :
    Decidable (Current catalog w a) :=
  match a with
  | .step p .next =>
    inferInstanceAs
      (Decidable (∀ x ∈ (w.procs p).pc.ready, StillCurrent catalog (replay w.wal) x.1 x.2))
  | .step _ (.call _) => .isTrue trivial
  | .sync _ => .isTrue trivial
  | .crash _ => .isTrue trivial

end RubixDb.TableStore

namespace RubixDb.Proof

open Lib RubixDb.TableStore List

/-! ## Entries by key -/

variable {es : RelStore} {t : Nat} {body : Bytes} {i : IndexRow} {k : StoreKey}
    {catalog : TableCatalog} {shape : TableShape} {d : PreparedRow} {done : List PreparedRow}

theorem mem_entriesAt {s id : Nat} :
    body ∈ entriesAt es s t id ↔ (readAt es (.entry t id body) s).isSome := by
  rw [entriesAt, mem_scanAt]
  constructor
  · rintro ⟨k, v, hk, hf⟩
    cases k with
    | entry t' id' body' =>
      simp only [] at hf
      split_ifs at hf with h
      rw [← h.1, ← h.2, ← Option.some.inj hf, hk]
      rfl
    | _ => cases hf
  · intro h
    obtain ⟨v, hv⟩ := Option.isSome_iff_exists.mp h
    exact ⟨_, v, hv, by simp⟩

theorem mem_derivedEntries :
    k ∈ derivedEntries es t i ↔ ∃ pk, entryOf t i (rowNow es t pk) pk = some k := by
  rw [derivedEntries, mem_filterMap]
  constructor
  · rintro ⟨pk, -, h⟩
    exact ⟨pk, h⟩
  · rintro ⟨pk, h⟩
    refine ⟨pk, ?_, h⟩
    obtain ⟨r, -, hr, -, -⟩ := entryOf_eq_some h
    obtain ⟨v, hv, -⟩ := Option.bind_eq_some_iff.mp hr
    obtain ⟨e, he, hkey⟩ := mem_map.mp (mem_keys_of_readAt hv)
    rw [rowKeys, mem_filterMap]
    exact ⟨e, he, by simp [hkey]⟩

theorem exact_iff :
    Exact catalog es t ↔ ∀ i ∈ TableStore.maintainedIndexes catalog t, ∀ body,
      ((readNow es (.entry t i.indexId body)).isSome ↔
        ∃ pk, entryOf t i (rowNow es t pk) pk = some (.entry t i.indexId body)) := by
  rw [Exact]
  simp only [mem_entriesAt, mem_derivedEntries]
  rfl

/-- Only the keys of the table matter. -/
theorem exact_congr {fs : RelStore} (h : ∀ k, onTable t k → readNow es k = readNow fs k)
    (he : Exact catalog es t) : Exact catalog fs t := by
  rw [exact_iff] at he ⊢
  have hrow : ∀ pk, rowNow fs t pk = rowNow es t pk := fun pk => by
    rw [rowNow, rowNow, h (.row t pk) rfl]
  intro i hi body
  rw [← h (.entry t i.indexId body) rfl, he i hi body]
  simp only [hrow]

/-! ## The rows of a call -/

/-- A row whose operations have been prepared for a table. -/
structure PreparedOk (catalog : TableCatalog) (shape : TableShape) (d : PreparedRow) : Prop where
  ops : ∃ maintenance, indexMaintenanceOps shape.table.tableId d.old d.new d.encodedPk
      (TableStore.maintainedIndexes catalog shape.table.tableId) = .ok maintenance ∧
    d.ops = maintenance ++ [(.row shape.table.tableId d.encodedPk,
      d.new.map fun row => .row shape.table.schemaVersion row)]
  new : ∀ r, d.new = some r → RowTyped shape r
  old : ∀ r, d.old = some r → ∃ stored, RowTyped shape stored ∧
    r = withColumns stored shape.table.pkOrdinals (d.pkValues.map some)

theorem indexIds_nodup (catalog : TableCatalog) (t : Nat) :
    ((TableStore.maintainedIndexes catalog t).map (·.indexId)).Nodup :=
  List.Nodup.sublist (filter_sublist.map _) (catalog.indexIds t)

theorem PreparedOk.lastOp_row (h : PreparedOk catalog shape d) (pk : Bytes) :
    lastOp d.ops (.row shape.table.tableId pk) =
      if d.encodedPk = pk then some (d.new.map fun row => .row shape.table.schemaVersion row)
      else none := by
  obtain ⟨maintenance, hm, hops⟩ := h.ops
  have hnone : lastOp maintenance (.row shape.table.tableId pk) = none := by
    refine lastOp_eq_none_iff.mpr fun hw => ?_
    obtain ⟨id, body, heq⟩ := onTable_of_indexMaintenanceOps hm hw
    cases heq
  rw [hops, lastOp_append, hnone]
  by_cases hpk : d.encodedPk = pk
  · simp [lastOp, hpk]
  · simp [lastOp, hpk]

theorem PreparedOk.lastOp_entry (h : PreparedOk catalog shape d)
    (hi : i ∈ TableStore.maintainedIndexes catalog shape.table.tableId) (body : Bytes) :
    lastOp d.ops (.entry shape.table.tableId i.indexId body) =
      lastOp (indexOps shape.table.tableId d.old d.new d.encodedPk i)
        (.entry shape.table.tableId i.indexId body) := by
  obtain ⟨maintenance, hm, hops⟩ := h.ops
  rw [hops, lastOp_append, lastOp_indexMaintenanceOps hi (indexIds_nodup catalog _) hm]
  rfl

theorem PreparedOk.onTable (h : PreparedOk catalog shape d) (hk : Writes d.ops k) :
    onTable shape.table.tableId k := by
  obtain ⟨maintenance, hm, hops⟩ := h.ops
  rw [hops] at hk
  obtain ⟨v, hv⟩ := hk
  rcases mem_append.mp hv with hv | hv
  · obtain ⟨id, body, rfl⟩ := onTable_of_indexMaintenanceOps hm ⟨v, hv⟩
    exact rfl
  · cases mem_singleton.mp hv
    exact rfl

theorem columnValue_set (row : Row) (o : Nat) (x : Option RelationalValue) (o' : Nat) :
    columnValue (row.set o x) o' = if o = o' ∧ o < row.length then x else columnValue row o' := by
  rw [columnValue, columnValue, getElem?_set]
  by_cases h : o = o'
  · by_cases hlt : o < row.length
    · simp [h, h ▸ hlt]
    · have hnone : row[o']? = none := getElem?_eq_none (by omega)
      simp [hlt, hnone]
  · simp [h]

/-- A row with key columns of the right types. -/
theorem rowTyped_withColumns {os : List Nat} {vs : List RelationalValue} :
    ∀ {row : Row}, RowTyped shape row →
      ((os.zip vs).all fun p => shape.columns.any fun c =>
        c.ordinal = p.1 ∧ (relationalTypeFromColumn c).toOption = some p.2.valueType) = true →
      RowTyped shape (withColumns row os (vs.map some)) := by
  induction os generalizing vs with
  | nil =>
    intro row h _
    cases vs <;> exact h
  | cons o os ih =>
    intro row h hkey
    cases vs with
    | nil => exact h
    | cons v vs =>
      rw [zip_cons_cons, all_cons, Bool.and_eq_true] at hkey
      refine ih (fun o' v' hv' => ?_) hkey.2
      rw [columnValue_set] at hv'
      split at hv'
      · rename_i heq
        cases hv'
        obtain ⟨c, hc, hcv⟩ := any_eq_true.mp hkey.1
        obtain ⟨hco, hct⟩ := of_decide_eq_true hcv
        refine ⟨c, hc, hco.trans heq.1, ?_⟩
        cases hty : relationalTypeFromColumn c with
        | error e => rw [hty] at hct; cases hct
        | ok ty => rw [hty] at hct; rw [Option.some.inj hct]
      · exact h o' v' hv'

/-! ## One batch -/

theorem lastUnder_spec (hd : d ∈ done) :
    ∃ pre post, done = pre ++ lastUnder done d :: post ∧
      (lastUnder done d).encodedPk = d.encodedPk ∧ ∀ e ∈ post, e.encodedPk ≠ d.encodedPk := by
  have hsome : (done.reverse.find? fun e => e.encodedPk = d.encodedPk).isSome := by
    rw [find?_isSome]
    exact ⟨d, mem_reverse.mpr hd, by simp⟩
  obtain ⟨l, hl⟩ := Option.isSome_iff_exists.mp hsome
  rw [lastUnder, hl]
  obtain ⟨hpk, as, bs, hsplit, has⟩ := find?_eq_some_iff_append.mp hl
  refine ⟨bs.reverse, as.reverse, ?_, by simpa using hpk, fun e he => ?_⟩
  · rw [← reverse_reverse done, hsplit, reverse_append, reverse_cons, append_assoc]
    rfl
  · have := has e (mem_reverse.mp he)
    simpa using this

theorem lastUnder_mem (hd : d ∈ done) : lastUnder done d ∈ done := by
  obtain ⟨pre, post, hsplit, -⟩ := lastUnder_spec hd
  have hmem : lastUnder done d ∈ pre ++ lastUnder done d :: post := by simp
  rwa [← hsplit] at hmem

/-- A log in which the entries are right, and the rows of a call that is about to write. -/
structure BatchOk (catalog : TableCatalog) (log : RelStore) (shape : TableShape)
    (done : List PreparedRow) : Prop where
  resolved : catalog.shape shape.table.tableId = some shape
  prepared : ∀ d ∈ done, PreparedOk catalog shape d
  typed : ∀ pk r, rowNow log shape.table.tableId pk = some r → RowTyped shape r
  current : StillCurrent catalog log shape done

section Batch

variable {log after : RelStore} {row : Option Row} {pk : Bytes}
  (h : BatchOk catalog log shape done)
include h

/-- **A call touches only entries of the keys it writes.** -/
theorem BatchOk.pk_eq (hd : d ∈ done)
    (hi : i ∈ TableStore.maintainedIndexes catalog shape.table.tableId)
    (htouch : lastOp d.ops (.entry shape.table.tableId i.indexId body) ≠ none)
    (hrow : ∀ r, row = some r → RowTyped shape r) (hentry : entryOf shape.table.tableId i row pk =
      some (.entry shape.table.tableId i.indexId body)) : pk = d.encodedPk := by
  have hord := catalog.ordinals _ _ h.resolved
  have hprep := h.prepared d hd
  rw [hprep.lastOp_entry hi, lastOp_indexOps] at htouch
  split at htouch
  · rename_i hnew
    exact pk_eq_of_entryOf hord hrow hprep.new hentry hnew
  · split_ifs at htouch with hold
    · -- what is removed is an entry of the key, by one of the three reasons
      obtain ⟨-, hnone | hlogged | htyped⟩ := h.current i hi d hd
      · cases hold.symm.trans hnone
      · exact pk_eq_of_entryOf hord hrow (h.typed d.encodedPk) hentry (hlogged.symm.trans hold)
      · refine pk_eq_of_entryOf hord hrow (fun r hr => ?_) hentry hold
        obtain ⟨stored, hstored, rfl⟩ := hprep.old r hr
        exact rowTyped_withColumns hstored htyped
    · exact absurd rfl htouch

section

variable (hafter : ∀ k, readNow after k = (lastOp (done.flatMap (·.ops)) k).getD (readNow log k))
include hafter

theorem BatchOk.rowNow_of_mem (hd : d ∈ done) :
    rowNow after shape.table.tableId d.encodedPk = (lastUnder done d).new := by
  obtain ⟨pre, post, hsplit, hpk, hpost⟩ := lastUnder_spec hd
  have hop : lastOp (done.flatMap (·.ops)) (.row shape.table.tableId d.encodedPk) =
      some ((lastUnder done d).new.map fun row => .row shape.table.schemaVersion row) := by
    conv_lhs => rw [hsplit]
    refine lastOp_flatMap_of_last ?_ fun e he => ?_
    · rw [(h.prepared _ (lastUnder_mem hd)).lastOp_row, if_pos hpk]
    · have hmem : e ∈ done := by
        rw [hsplit]
        exact mem_append_right _ (mem_cons_of_mem _ he)
      rw [(h.prepared e hmem).lastOp_row, if_neg (hpost e he)]
  rw [rowNow, hafter, hop]
  cases (lastUnder done d).new with
  | none => rfl
  | some r => rfl

theorem BatchOk.rowNow_of_not_mem (hpk : ∀ d ∈ done, d.encodedPk ≠ pk) :
    rowNow after shape.table.tableId pk = rowNow log shape.table.tableId pk := by
  have hop : lastOp (done.flatMap (·.ops)) (.row shape.table.tableId pk) = none := by
    refine lastOp_flatMap_eq_none_iff.mpr fun d hd => ?_
    rw [(h.prepared d hd).lastOp_row, if_neg (hpk d hd)]
  rw [rowNow, hafter, hop]
  rfl

/-- What is left of a key that some row of the call touches last. -/
theorem BatchOk.readNow_of_last {v : Option StoreValue} (hd : d ∈ done)
    (hi : i ∈ TableStore.maintainedIndexes catalog shape.table.tableId)
    (hop : lastOp (lastUnder done d).ops (.entry shape.table.tableId i.indexId body) = some v)
    (hrow : ∀ r, row = some r → RowTyped shape r)
    (hentry : entryOf shape.table.tableId i row d.encodedPk =
      some (.entry shape.table.tableId i.indexId body)) :
    readNow after (.entry shape.table.tableId i.indexId body) = v := by
  obtain ⟨pre, post, hsplit, -, hpost⟩ := lastUnder_spec hd
  have hlast :
      lastOp (done.flatMap (·.ops)) (.entry shape.table.tableId i.indexId body) = some v := by
    conv_lhs => rw [hsplit]
    refine lastOp_flatMap_of_last hop fun e he => ?_
    have hmem : e ∈ done := by
      rw [hsplit]
      exact mem_append_right _ (mem_cons_of_mem _ he)
    -- a later row is under another key and touches only its own entries
    by_contra htouch
    exact hpost e he (h.pk_eq hmem hi htouch hrow hentry).symm
  rw [hafter, hlast, Option.getD_some]

/-- **A batch that is still current keeps the entries right.** -/
theorem BatchOk.exact (he : Exact catalog log shape.table.tableId) :
    Exact catalog after shape.table.tableId := by
  rw [exact_iff] at he ⊢
  intro i hi body
  have hlastop : ∀ d ∈ done,
      lastOp (lastUnder done d).ops (.entry shape.table.tableId i.indexId body) =
      if entryOf shape.table.tableId i (lastUnder done d).new d.encodedPk =
          some (.entry shape.table.tableId i.indexId body) then some (some .marker)
      else if entryOf shape.table.tableId i (lastUnder done d).old d.encodedPk =
          some (.entry shape.table.tableId i.indexId body) then some none
      else none := by
    intro d hd
    obtain ⟨-, -, -, hpk, -⟩ := lastUnder_spec hd
    rw [(h.prepared _ (lastUnder_mem hd)).lastOp_entry hi, lastOp_indexOps, hpk]
  -- an entry of the log or of a row of the call that is still there is that of the last row
  have hkept : ∀ d ∈ done, ∀ row, (∀ r, row = some r → RowTyped shape r) →
      entryOf shape.table.tableId i row d.encodedPk =
        some (.entry shape.table.tableId i.indexId body) →
      (entryOf shape.table.tableId i row d.encodedPk = none ∨
        entryOf shape.table.tableId i row d.encodedPk =
          entryOf shape.table.tableId i (lastUnder done d).new d.encodedPk ∨
        entryOf shape.table.tableId i row d.encodedPk =
          entryOf shape.table.tableId i (lastUnder done d).old d.encodedPk) →
      (readNow after (.entry shape.table.tableId i.indexId body)).isSome →
      entryOf shape.table.tableId i (lastUnder done d).new d.encodedPk =
        some (.entry shape.table.tableId i.indexId body) := by
    intro d hd row hrow hentry hcase hsome
    rw [hentry] at hcase
    rcases hcase with hnone | hnew | hold
    · cases hnone
    · exact hnew.symm
    · by_contra hne
      have hop := hlastop d hd
      rw [if_neg hne, if_pos hold.symm] at hop
      rw [h.readNow_of_last hafter hd hi hop hrow hentry] at hsome
      cases hsome
  constructor
  · intro hsome
    cases hop : lastOp (done.flatMap (·.ops)) (.entry shape.table.tableId i.indexId body) with
    | some v =>
      obtain ⟨pre, d, post, rfl, hdop, -⟩ := lastOp_flatMap_eq_some hop
      have hd : d ∈ pre ++ d :: post := by simp
      have hv : v.isSome := by
        have := hafter (.entry shape.table.tableId i.indexId body)
        rw [hop] at this
        rwa [this] at hsome
      rw [(h.prepared d hd).lastOp_entry hi, lastOp_indexOps] at hdop
      split at hdop
      · rename_i hnew
        refine ⟨d.encodedPk, ?_⟩
        rw [h.rowNow_of_mem hafter hd]
        exact hkept d hd d.new (h.prepared d hd).new hnew
          ((h.current i hi d hd).1 _ (by simp)) hsome
      · split_ifs at hdop
        cases hdop
        cases hv
    | none =>
      have hlog := hafter (.entry shape.table.tableId i.indexId body)
      rw [hop] at hlog
      rw [hlog] at hsome
      obtain ⟨pk, hpk⟩ := (he i hi body).mp hsome
      by_cases hmem : ∃ d ∈ done, d.encodedPk = pk
      · obtain ⟨d, hd, rfl⟩ := hmem
        refine ⟨d.encodedPk, ?_⟩
        rw [h.rowNow_of_mem hafter hd]
        exact hkept d hd _ (h.typed d.encodedPk) hpk ((h.current i hi d hd).1 _ (by simp))
          (hlog ▸ hsome)
      · refine ⟨pk, ?_⟩
        rw [h.rowNow_of_not_mem hafter fun d hd heq => hmem ⟨d, hd, heq⟩]
        exact hpk
  · rintro ⟨pk, hpk⟩
    by_cases hmem : ∃ d ∈ done, d.encodedPk = pk
    · obtain ⟨d, hd, rfl⟩ := hmem
      rw [h.rowNow_of_mem hafter hd] at hpk
      have hop := hlastop d hd
      rw [if_pos hpk] at hop
      rw [h.readNow_of_last hafter hd hi hop (h.prepared _ (lastUnder_mem hd)).new hpk]
      rfl
    · have hnot : ∀ d ∈ done, d.encodedPk ≠ pk := fun d hd heq => hmem ⟨d, hd, heq⟩
      rw [h.rowNow_of_not_mem hafter hnot] at hpk
      have hop :
          lastOp (done.flatMap (·.ops)) (.entry shape.table.tableId i.indexId body) = none := by
        refine lastOp_flatMap_eq_none_iff.mpr fun d hd => ?_
        by_contra htouch
        exact hnot d hd (h.pk_eq hd hi htouch (h.typed pk) hpk).symm
      rw [hafter, hop, Option.getD_none, he i hi body]
      exact ⟨pk, hpk⟩

end

end Batch

end RubixDb.Proof
