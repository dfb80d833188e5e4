import RubixDb.Proof.IndexEntries
import RubixDb.Proof.InsertKeeps
import RubixDb.Proof.KeyCarry
import RubixDb.Proof.Rollback
import RubixDb.Relational.IndexBuild

/-!
# Three notions of a UNIQUE conflict

Two rows of a table with a `UNIQUE` index are put before the three places of the source
that decide whether they conflict:

* `find_hit` of an `INSERT ... ON CONFLICT`, with the first row committed or already
  inserted by the statement;
* `validate_and_build_ops`, for a transaction that writes the second row when the first is
  committed;
* `verify_unique_entries`, over the entries of both.

The last two go by the encoded columns and leave out only a tuple of `NULL`s; the first
leaves out every tuple with a `NULL` in it.
-/

namespace RubixDb

open Lib

/-- Two rows of a table with a `UNIQUE` index: the catalog is in order, and each row has
been accepted and has its key and its entry. -/
structure UniquePair where
  shape : TableShape
  index : IndexRow
  old : Row
  new : Row
  oldPk : List RelationalValue
  newPk : List RelationalValue
  oldKey : Bytes
  newKey : Bytes
  oldIndexed : Bytes
  newIndexed : Bytes
  ordinals : shape.columns.map (·.ordinal) = List.range shape.columns.length
  types : ∀ c ∈ shape.columns, ∃ ty, relationalTypeFromColumn c = .ok ty
  unique : index.kind = .unique
  ready : index.state = .ready
  indexTable : index.tableId = shape.table.tableId
  indexed : index.columnOrdinals ≠ []
  indexColumns : ∀ o ∈ index.columnOrdinals, o < shape.columns.length
  oldValid : validateRowShape shape.table shape.columns old = .ok ()
  newValid : validateRowShape shape.table shape.columns new = .ok ()
  oldPkValues : extractPkValues shape.table old = .ok oldPk
  newPkValues : extractPkValues shape.table new = .ok newPk
  oldEncoded : encodeCompositeKey oldPk = .ok oldKey
  newEncoded : encodeCompositeKey newPk = .ok newKey
  apart : oldKey ≠ newKey
  oldColumns : encodeIndexedColumns (indexedValues index old) = .ok oldIndexed
  newColumns : encodeIndexedColumns (indexedValues index new) = .ok newIndexed
  newEntry : ∃ key, indexEntryKey shape.table.tableId index.indexId newIndexed newKey = .ok key
  newFits : ∃ bytes, buildPutValue shape.table shape.columns new = .ok bytes

namespace UniquePair

variable (p : UniquePair)

def tableId : Nat := p.shape.table.tableId

def catalogRows : List (StoreKey × StoreValue) :=
  [(.table p.tableId, .table p.shape), (.index p.index.indexId, .index p.index)]

def oldRows : List (StoreKey × StoreValue) :=
  [(.row p.tableId p.oldKey, .row p.shape.table.schemaVersion p.old),
    (.entry p.tableId p.index.indexId (p.oldIndexed ++ p.oldKey), .marker)]

def newRows : List (StoreKey × StoreValue) :=
  [(.row p.tableId p.newKey, .row p.shape.table.schemaVersion p.new),
    (.entry p.tableId p.index.indexId (p.newIndexed ++ p.newKey), .marker)]

/-- The table without a row. -/
def emptyStore : RelStore := flat p.catalogRows

/-- The first row is committed. -/
def oldStore : RelStore := flat (p.catalogRows ++ p.oldRows)

/-- Both are. -/
def bothStore : RelStore := flat (p.catalogRows ++ p.oldRows ++ p.newRows)

/-- Room for one row. -/
def limits : TxnLimits := ⟨1, approxRowBytes p.new⟩

def arbiter : Arbiter := uniqueArbiter p.index

/-- `find_hit` for the second row, the first being committed. -/
def hitCommitted : Except SqlError (Option Hit) :=
  findHit (dbOf p.limits p.oldStore 1 []) .begin p.shape.table (.new [p.arbiter]) p.new [p.arbiter]
    (Pending.new [p.arbiter]).byArbiter

/-- The statement's rows after it has inserted the first. -/
def pending : Pending := (Pending.new [p.arbiter]).add p.oldPk p.old none true [p.arbiter]

/-- `find_hit` for the second row, the first being the statement's own. -/
def hitPending : Except SqlError (Option Hit) :=
  findHit (dbOf p.limits p.emptyStore 1 []) .begin p.shape.table p.pending p.new [p.arbiter]
    p.pending.byArbiter

/-- The commit of a transaction that puts the second row, the first being committed. -/
def commitNew : Except TxnError (Option RelOps) :=
  (runTxn (putRow (dbOf p.limits p.oldStore 1 []) p.tableId p.new) .begin).2.commitOps
    p.limits p.oldStore 1 []

/-- Would the index be refused over the two rows? -/
def verifyBoth : Bool := verifyUniqueEntries p.bothStore 1 p.index

end UniquePair

end RubixDb

namespace RubixDb.Proof

open Lib List

/-! ## Equal tuples -/

variable {x y : Bytes} {as bs values : List (Option RelationalValue)} {os : List Nat}
    {vals : List RelationalValue} {index : IndexRow} {row : Row}

theorem sameField_iff {a b : Option RelationalValue}
    (ht : ∀ v ∈ a, ∀ w ∈ b, v.valueType = w.valueType) (ha : encodeIndexedColumn a = .ok x)
    (hb : encodeIndexedColumn b = .ok y) : sameField a b = true ↔ x = y := by
  have hsep := separates_encodeIndexedColumn ht ha hb
  rw [← hsep.eq_iff]
  cases a with
  | none => cases b <;> simp [sameField, cmpOption]
  | some v =>
    cases b with
    | none => simp [sameField, cmpOption]
    | some w =>
      obtain ⟨xv, hxv, -⟩ := bind_eq_ok.mp ha
      obtain ⟨yw, hyw, -⟩ := bind_eq_ok.mp hb
      exact (cmp_eq_iff_same (ht v rfl w rfl) (encodeKeyValue_eq_ok.mp hxv).1
        (encodeKeyValue_eq_ok.mp hyw).1).symm

/-- **Tuples encode alike exactly when they are equal**, `NULL` counting as equal to
`NULL`. -/
theorem sameRow_iff (ht : SameTypes as bs) (hx : encodeIndexedColumns as = .ok x)
    (hy : encodeIndexedColumns bs = .ok y) : sameRow as bs = true ↔ x = y := by
  rw [encodeIndexedColumns_eq] at hx hy
  induction ht generalizing x y with
  | nil =>
    cases hx
    cases hy
    simp [sameRow]
  | cons hab _ ih =>
    obtain ⟨xa, xas, hxa, hxas, rfl⟩ := concatM_cons_eq_ok.mp hx
    obtain ⟨yb, ybs, hyb, hybs, rfl⟩ := concatM_cons_eq_ok.mp hy
    rw [sameRow, Bool.and_eq_true, sameField_iff hab hxa hyb, ih hxas hybs]
    constructor
    · rintro ⟨rfl, rfl⟩
      rfl
    · intro heq
      have hsep := separates_encodeIndexedColumn hab hxa hyb
      obtain ⟨ho, hrest⟩ := hsep.eq_of_append heq
      exact ⟨hsep.eq_iff.mp ho, hrest⟩

theorem map_isNone_of_sameRow (h : sameRow as bs = true) :
    as.map Option.isNone = bs.map Option.isNone := by
  induction as generalizing bs with
  | nil =>
    cases bs with
    | nil => rfl
    | cons b bs => cases h
  | cons a as ih =>
    cases bs with
    | nil => cases h
    | cons b bs =>
      rw [sameRow, Bool.and_eq_true] at h
      rw [map_cons, ih h.2]
      cases a <;> cases b <;> first | rfl | cases h.1

/-- The `WHERE` of the arbiter's lookup, for a tuple without `NULL`s. -/
theorem rowMatches_iff_sameRow {old : Row} (hlen : os.length = vals.length) :
    rowMatches old os vals = true ↔ sameRow (os.map (columnValue old)) (vals.map some) = true := by
  induction os generalizing vals with
  | nil =>
    cases vals with
    | nil => simp [rowMatches, sameRow]
    | cons v vals => cases hlen
  | cons o os ih =>
    cases vals with
    | nil => cases hlen
    | cons v vals =>
      rw [rowMatches, map_cons, map_cons, sameRow, Bool.and_eq_true,
        ih (Nat.succ.inj hlen)]
      cases columnValue old o with
      | none | some x => simp [sameField]

/-- The values of an index, if none of them is `NULL`. -/
theorem indexedValues_eq
    (h : tupleOf row index.columnOrdinals = some vals) : indexedValues index row = vals.map some :=
  tupleOf_eq_some_iff.mp h

theorem tupleOf_eq_none_iff :
    tupleOf row os = none ↔ (os.map (columnValue row)).any (·.isNone) = true := by
  induction os with
  | nil => simp [tupleOf]
  | cons o os ih =>
    rw [tupleOf, mapM_cons, map_cons, any_cons, Bool.or_eq_true, ← ih]
    cases columnValue row o with
    | none => simp
    | some v =>
      rw [tupleOf]
      cases os.mapM (columnValue row) with
      | none | some vs => simp

theorem any_isNone_of_tupleOf (h : tupleOf row index.columnOrdinals = some vals) :
    (indexedValues index row).any (·.isNone) = false := by
  rw [indexedValues_eq h]
  simp

theorem length_of_tupleOf (h : tupleOf row os = some vals) : os.length = vals.length := by
  simpa using congrArg List.length (tupleOf_eq_some_iff.mp h)

/-! ## Grouping keys -/

/-- An indexed value that can be encoded is a number. -/
theorem isNan_of_encodeIndexedColumns {v : RelationalValue}
    (h : encodeIndexedColumns values = .ok x) (hv : some v ∈ values) : isNan v = false := by
  rw [encodeIndexedColumns_eq] at h
  obtain ⟨bytes, hbytes⟩ := concatM_defined.mp ⟨x, h⟩ (some v) hv
  obtain ⟨key, hkey, -⟩ := bind_eq_ok.mp hbytes
  exact (encodeKeyValue_eq_ok.mp hkey).1

/-- Numbers have equal grouping keys when they are equal. -/
theorem sameRow_some_iff {olds news : List RelationalValue} (hnan : ∀ v ∈ olds, isNan v = false) :
    sameRow (olds.map some) (news.map some) = true ↔
      olds.map groupingValue = news.map groupingValue := by
  induction olds generalizing news with
  | nil => cases news <;> simp [sameRow]
  | cons v olds ih =>
    rw [forall_mem_cons] at hnan
    cases news with
    | nil => simp [sameRow]
    | cons w news =>
      rw [map_cons, map_cons, sameRow, Bool.and_eq_true, ih hnan.2, sameField, same_iff,
        and_iff_left hnan.1, map_cons, map_cons, List.cons.injEq]

/-! ## The three stores -/

section

variable (p : UniquePair) {types : List RelationalType} {u : Bytes}

theorem sameTypes_pair : SameTypes (indexedValues p.index p.old) (indexedValues p.index p.new) :=
  sameTypes_of_typed p.ordinals (rowTyped_of_valid p.ordinals p.oldValid)
    (rowTyped_of_valid p.ordinals p.newValid) p.index.columnOrdinals

theorem sameRow_pair_iff :
    sameRow (indexedValues p.index p.old) (indexedValues p.index p.new) = true ↔
      p.oldIndexed = p.newIndexed :=
  sameRow_iff (sameTypes_pair p) p.oldColumns p.newColumns

theorem separates_pair :
    Separates
      (List.compareLex cmpOption (indexedValues p.index p.new) (indexedValues p.index p.old))
      p.newIndexed p.oldIndexed :=
  separates_encodeIndexedColumns
    (sameTypes_of_typed p.ordinals (rowTyped_of_valid p.ordinals p.newValid)
      (rowTyped_of_valid p.ordinals p.oldValid) p.index.columnOrdinals) p.newColumns p.oldColumns

theorem nodup_oldStore : ((p.catalogRows ++ p.oldRows).map (·.1)).Nodup := by
  simp [UniquePair.catalogRows, UniquePair.oldRows]

theorem nodup_bothStore : ((p.catalogRows ++ p.oldRows ++ p.newRows).map (·.1)).Nodup := by
  have hentry : p.oldIndexed ++ p.oldKey ≠ p.newIndexed ++ p.newKey := fun h =>
    p.apart ((separates_pair p).eq_of_append h.symm).2.symm
  simp [UniquePair.catalogRows, UniquePair.oldRows, UniquePair.newRows, p.apart, hentry]

/-! ## The entries of both rows -/

/-- Every indexed column has a type, and the rows' values are of it. -/
theorem indexTypes_of_columns :
    ∃ types, indexTypes p.shape.columns p.index = some types ∧
      ∀ row, RowTyped p.shape row → OfTypes (indexedValues p.index row) types := by
  have hcolumns := p.indexColumns
  rw [indexTypes]
  simp only [indexedValues]
  generalize p.index.columnOrdinals = ordinals at hcolumns ⊢
  induction ordinals with
  | nil => exact ⟨[], rfl, fun row _ => .nil⟩
  | cons o os ih =>
    obtain ⟨types, htypes, hall⟩ := ih fun o' ho' => hcolumns o' (mem_cons_of_mem o ho')
    have hmem : o ∈ p.shape.columns.map (·.ordinal) := by
      rw [p.ordinals]
      exact mem_range.mpr (hcolumns o mem_cons_self)
    have hnodup : (p.shape.columns.map (·.ordinal)).Nodup := by
      rw [p.ordinals]
      exact nodup_range
    obtain ⟨c, hfind⟩ : ∃ c, p.shape.columns.find? (fun c => c.ordinal = o) = some c := by
      obtain ⟨c, hc, hco⟩ := mem_map.mp hmem
      exact Option.isSome_iff_exists.mp (find?_isSome.mpr ⟨c, hc, by simpa using hco⟩)
    have hc := mem_of_find?_eq_some hfind
    have hco : c.ordinal = o := by simpa using find?_some hfind
    obtain ⟨ty, hty⟩ := p.types c hc
    refine ⟨ty :: types, ?_, fun row hrow => .cons (fun v hv => ?_) (hall row hrow)⟩
    · rw [mapM_cons, hfind, Option.bind_some, hty, htypes]
      rfl
    · obtain ⟨d, hd, hdo, hdty⟩ := hrow o v hv
      obtain rfl := inj_on_of_nodup_map hnodup hd hc (hdo.trans hco.symm)
      exact Except.ok.inj (hdty.symm.trans hty)

theorem all_isNone_canonical (values : List (Option RelationalValue)) :
    (values.map (·.map RelationalValue.canonical)).all (·.isNone) = values.all (·.isNone) := by
  rw [all_map]
  congr 1
  funext value
  cases value with
  | none | some v => rfl

/-- The loop over one entry. -/
theorem entriesDistinct_cons (ht : OfTypes values types) (hx : encodeIndexedColumns values = .ok x)
    (previous : Option Bytes) (bodies : List Bytes) :
    entriesDistinct types previous ((x ++ u) :: bodies) =
      if values.all (·.isNone) then entriesDistinct types none bodies
      else (decide (previous ≠ some x) && entriesDistinct types (some x) bodies) := by
  have hdecode := @decodeIndexedColumns_append u values types ht [] x hx
  rw [nil_append, length_nil, Nat.zero_add] at hdecode
  rw [entriesDistinct, hdecode]
  simp only [all_isNone_canonical, take_left']

/-- Two entries are told apart unless they have the same indexed bytes and something in
them. -/
theorem entriesDistinct_pair {v : Bytes} (has : OfTypes as types) (hbs : OfTypes bs types)
    (hx : encodeIndexedColumns as = .ok x) (hy : encodeIndexedColumns bs = .ok y) :
    entriesDistinct types none [x ++ u, y ++ v] = false ↔
      x = y ∧ as.all (·.isNone) = false ∧ bs.all (·.isNone) = false := by
  rw [entriesDistinct_cons has hx, entriesDistinct_cons hbs hy, entriesDistinct_cons hbs hy]
  cases as.all (·.isNone) with
  | true | false => cases bs.all (·.isNone) <;> simp [entriesDistinct]

theorem tableAt_bothStore (s : Nat) (hs : 1 ≤ s) :
    tableAt p.bothStore s p.index.tableId = some p.shape := by
  have hread : readAt p.bothStore (.table p.tableId) s = some (.table p.shape) :=
    (readAt_flat (nodup_bothStore p) hs).mpr (by simp [UniquePair.catalogRows])
  rw [p.indexTable]
  change ((readAt p.bothStore (.table p.tableId) s).bind StoreValue.table?).map _ = _
  rw [hread]
  rfl

theorem entriesAt_bothStore (s : Nat) (hs : 1 ≤ s) :
    entriesAt p.bothStore s p.index.tableId p.index.indexId =
      [p.oldIndexed ++ p.oldKey, p.newIndexed ++ p.newKey] := by
  rw [entriesAt, UniquePair.bothStore, scanAt_flat (nodup_bothStore p) hs]
  simp [UniquePair.catalogRows, UniquePair.oldRows, UniquePair.newRows, UniquePair.tableId,
    p.indexTable]

/-- **An index is refused over the two rows** when their indexed values are equal, unless
all of them are `NULL`. -/
theorem verifyBoth_iff :
    p.verifyBoth = false ↔
      p.oldIndexed = p.newIndexed ∧ (indexedValues p.index p.old).all (·.isNone) = false ∧
        (indexedValues p.index p.new).all (·.isNone) = false := by
  obtain ⟨types, htypes, hall⟩ := indexTypes_of_columns p
  have hold := hall p.old (rowTyped_of_valid p.ordinals p.oldValid)
  have hnew := hall p.new (rowTyped_of_valid p.ordinals p.newValid)
  have htop : topSeq p.bothStore = 1 := topSeq_flat (by simp [UniquePair.catalogRows])
  rw [UniquePair.verifyBoth, verifyUniqueEntries, htop, tableAt_bothStore p 1 (Nat.le_refl 1),
    Option.bind_some, htypes, sortedEntriesAt, entriesAt_bothStore p 1 (Nat.le_refl 1)]
  -- the order of the two entries does not matter
  rcases perm_pair.mp (mergeSort_perm [p.oldIndexed ++ p.oldKey, p.newIndexed ++ p.newKey]
    (· ≤ ·)) with hsort | hsort
  · rw [hsort]
    exact entriesDistinct_pair hold hnew p.oldColumns p.newColumns
  · rw [hsort]
    refine (entriesDistinct_pair hnew hold p.newColumns p.oldColumns).trans ?_
    rw [eq_comm, and_comm (a := (indexedValues p.index p.new).all _ = false)]

/-! ## What a transaction sees of the first row -/

abbrev oldDb : Db := dbOf p.limits p.oldStore 1 []

theorem topSeq_oldStore : topSeq p.oldStore = 1 := topSeq_flat (by simp [UniquePair.catalogRows])

theorem resolveTable_oldStore : (oldDb p).resolveTable p.tableId = .ok p.shape := by
  have hread : readAt p.oldStore (.table p.tableId) 1 = some (.table p.shape) :=
    (readAt_flat (nodup_oldStore p) (Nat.le_refl 1)).mpr (by simp [UniquePair.catalogRows])
  rw [resolveTable_eq_ok]
  show tableAt p.oldStore (topSeq p.oldStore) p.tableId = some p.shape
  rw [topSeq_oldStore, tableAt, hread]
  rfl

theorem indexes_oldStore : (oldDb p).indexes p.tableId = [p.index] := by
  show listIndexesAt p.oldStore (topSeq p.oldStore) p.tableId = [p.index]
  rw [topSeq_oldStore, listIndexesAt, UniquePair.oldStore,
    scanAt_flat (nodup_oldStore p) (Nat.le_refl 1)]
  simp [UniquePair.catalogRows, UniquePair.oldRows, UniquePair.tableId, p.indexTable,
    StoreValue.index?, Option.filter]

theorem snapshot_oldStore :
    (oldDb p).snapshot p.tableId = (∅ : TableRows).insert p.oldKey p.old := by
  have hread : readAt p.oldStore (.row p.tableId p.oldKey) 1 =
      some (.row p.shape.table.schemaVersion p.old) :=
    (readAt_flat (nodup_oldStore p) (Nat.le_refl 1)).mpr (by simp [UniquePair.oldRows])
  have hkeys : rowKeys p.oldStore p.tableId = [p.oldKey] := by
    simp [rowKeys, UniquePair.oldStore, flat, UniquePair.catalogRows, UniquePair.oldRows]
  show rowsAt p.oldStore 1 p.tableId = _
  rw [rowsAt, hkeys, foldr_cons, rowAt, hread]
  rfl

theorem entriesAt_oldStore :
    entriesAt p.oldStore 1 p.tableId p.index.indexId = [p.oldIndexed ++ p.oldKey] := by
  rw [entriesAt, UniquePair.oldStore, scanAt_flat (nodup_oldStore p) (Nat.le_refl 1)]
  simp [UniquePair.catalogRows, UniquePair.oldRows]

/-! ## The commit -/

/-- **The range of a claimed value has the entries of that value.** -/
theorem inPrefixRange_iff (ht : SameTypes as bs) (hx : encodeIndexedColumns as = .ok x)
    (hy : encodeIndexedColumns bs = .ok y) (hne : as ≠ []) :
    inPrefixRange x (y ++ u) = true ↔ x = y := by
  have hsep := separates_encodeIndexedColumns ht hx hy
  have hfree : CarryFree x (y ++ u) :=
    carryFree_of_length_le fun hxr hyr => length_le_of_carried_indexed ht hx hy hxr hyr
  rw [inPrefixRange]
  cases hinc : increment x with
  | none => exact absurd (eq_nil_of_all_ff_indexed hx (increment_eq_none hinc)) hne
  | some stop =>
    rw [Bool.and_eq_true, decide_eq_true_eq, decide_eq_true_eq, lt_increment_iff hinc hfree,
      hsep.isPrefix_iff, hsep.eq_iff]
    constructor
    · rintro ⟨hle, hlt | heq⟩
      · exact absurd hlt (not_lt.mpr hle)
      · exact heq
    · rintro rfl
      refine ⟨?_, .inr rfl⟩
      have hle : x ++ [] ≤ x ++ u := (append_le_append_iff x).mpr (not_lt.mp (not_lt_nil u))
      rwa [append_nil] at hle

/-- The transaction once it has recorded the version of the table. -/
def versionedTxn : Txn :=
  { Txn.begin with
    tableVersions := (∅ : AList fun _ : Nat => Nat).insert p.tableId p.shape.table.schemaVersion }

/-- And once it has put the second row. -/
def writtenTxn : Txn :=
  Txn.journaled (versionedTxn p) p.tableId p.newKey p.newPk (.put p.new) (approxRowBytes p.new)

theorem runTxn_putRow : (runTxn (putRow (oldDb p) p.tableId p.new) .begin).2 = writtenTxn p := by
  have hput : putRow (oldDb p) p.tableId p.new .begin =
      recordOp (oldDb p) p.tableId p.newKey p.newPk (.put p.new)
        (approxRowBytes p.new) (versionedTxn p) := by
    simp only [putRow, resolveTable_oldStore, liftTxn, pure_bind, p.newValid, p.newPkValues,
      p.newEncoded, estate_modify_bind]
    rfl
  -- one row of its size is within the limits
  have hbytes : ¬ (oldDb p).limits.maxWriteSetBytes <
      (versionedTxn p).byteCount + approxRowBytes p.new := by
    show ¬ approxRowBytes p.new < 0 + approxRowBytes p.new
    omega
  rw [runTxn, hput, recordOp_eq, if_neg hbytes]
  rfl

/-- What the second row claims: its indexed values, unless all of them are `NULL`. -/
def newClaims : List UniqueCheck :=
  if (indexedValues p.index p.new).all (·.isNone) then []
  else [⟨p.tableId, p.index, p.newIndexed, p.newKey⟩]

theorem indexedEntryKey_new :
    indexedEntryKey p.tableId p.index p.new p.newKey =
      .ok (.entry p.tableId p.index.indexId (p.newIndexed ++ p.newKey)) := by
  have hwide : p.index.columnOrdinals.find? (p.new.length ≤ ·) = none := by
    rw [find?_eq_none]
    intro o ho
    have := p.indexColumns o ho
    have := (validateRowShape_ok p.newValid).1
    simp only [decide_eq_true_eq]
    omega
  obtain ⟨key, hkey⟩ := p.newEntry
  rw [indexedEntryKey, hwide, p.newColumns]
  simp only [UniquePair.tableId, hkey]

theorem maintainedIndexes_oldStore : maintainedIndexes (oldDb p) p.tableId = [p.index] := by
  rw [maintainedIndexes, indexes_oldStore]
  simp [p.unique, p.ready]

theorem uniqueChecks_new :
    uniqueChecks p.tableId none p.new p.newKey [p.index] = .ok (newClaims p) := by
  rw [uniqueChecks, uniqueCheck, indexedEntryKey_new, optionalEntryKey, uniqueChecks, newClaims]
  by_cases hnull : (indexedValues p.index p.new).all (·.isNone) = true
  · simp [hnull, ok_bind]
  · simp [hnull, ok_bind, p.newColumns]

theorem buildRow_new : ∃ ops,
    buildRow (oldDb p) p.shape [p.index] p.newKey p.newPk (.put p.new) =
      .ok (ops, newClaims p) := by
  have hfetch : fetchRowByEncodedPk (oldDb p).snapshot p.shape.table p.newPk
      p.newKey = none := by
    show ((oldDb p).snapshot p.tableId |>.lookup p.newKey).map _ = none
    rw [snapshot_oldStore, AList.lookup_insert_ne p.apart.symm]
    rfl
  obtain ⟨maintenance, hmaintenance⟩ : ∃ ops,
      indexMaintenanceOps p.tableId none (some p.new) p.newKey [p.index] = .ok ops := by
    rw [indexMaintenanceOps, optionalEntryKey, optionalEntryKey, indexedEntryKey_new]
    exact ⟨_, rfl⟩
  have hunique : [p.index].filter (fun i => i.kind = .unique) = [p.index] := by simp [p.unique]
  obtain ⟨bytes, hbytes⟩ := p.newFits
  refine ⟨(.row p.tableId p.newKey, some (.row p.shape.table.schemaVersion p.new)) ::
    maintenance, ?_⟩
  rw [buildRow, hfetch, hbytes, hunique]
  change (indexMaintenanceOps p.tableId none (some p.new) p.newKey [p.index] >>= _) = _
  rw [hmaintenance]
  change (uniqueChecks p.tableId none p.new p.newKey [p.index] >>= _) = _
  rw [uniqueChecks_new]
  rfl

theorem buildTables_written : ∃ ops,
    buildTables (oldDb p) (writtenTxn p)
        ((writtenTxn p).writes.entries.mergeSort fun a b => a.1 ≤ b.1) =
          .ok (ops, newClaims p) := by
  obtain ⟨ops, hops⟩ := buildRow_new p
  have hentries : (writtenTxn p).writes.entries =
      [⟨p.tableId, (∅ : TableWrites).insert p.newKey (p.newPk, .put p.new)⟩] := rfl
  have hrows : ((∅ : TableWrites).insert p.newKey (p.newPk, .put p.new)).entries =
      [⟨p.newKey, (p.newPk, .put p.new)⟩] := rfl
  have hversion : (writtenTxn p).tableVersions.lookup p.tableId =
      some p.shape.table.schemaVersion :=
    AList.lookup_insert _
  refine ⟨ops ++ [] ++ [], ?_⟩
  rw [hentries, mergeSort_singleton, buildTables, buildTable, resolveTable_oldStore, ok_bind,
    hversion, if_neg (by simp), maintainedIndexes_oldStore, hrows, buildRows, hops]
  simp only [ok_bind, buildRows, buildTables, append_nil]

/-- The claim of the second row against the entry of the first. -/
theorem checkUnique_new :
    checkUnique p.oldStore (writtenTxn p) (newClaims p) =
      if p.oldIndexed = p.newIndexed ∧ (indexedValues p.index p.new).all (·.isNone) = false then
        .error (.conflict .uniqueCommitted)
      else .ok () := by
  rw [newClaims]
  cases (indexedValues p.index p.new).all (·.isNone) with
  | true => simp [checkUnique]
  | false =>
    have hne : indexedValues p.index p.new ≠ [] := by
      rw [indexedValues, Ne, map_eq_nil_iff]
      exact p.indexed
    have hrange := @inPrefixRange_iff _ _ _ _ p.oldKey
      (sameTypes_of_typed p.ordinals (rowTyped_of_valid p.ordinals p.newValid)
        (rowTyped_of_valid p.ordinals p.oldValid) p.index.columnOrdinals)
      p.newColumns p.oldColumns hne
    simp only [Bool.false_eq_true, if_false, and_true, checkUnique, topSeq_oldStore,
      entriesAt_oldStore]
    by_cases heq : p.oldIndexed = p.newIndexed
    · -- the entry is not the row's own, and the transaction does not touch its row
      have hdrop : (p.oldIndexed ++ p.oldKey).drop p.newIndexed.length = p.oldKey := by
        rw [heq, drop_left]
      have hvacated : entryIsSelfVacated (writtenTxn p) ⟨p.tableId, p.index, p.newIndexed, p.newKey⟩
          p.oldKey = .ok false := by
        have hlookup :
            ((writtenTxn p).writes.lookup p.tableId).bind (·.lookup p.oldKey) = none := by
          show (((∅ : WriteSet).insert p.tableId _).lookup p.tableId).bind _ = none
          rw [AList.lookup_insert]
          exact AList.lookup_insert_ne p.apart
        rw [entryIsSelfVacated, hlookup]
      rw [filter_cons_of_pos (hrange.mpr heq.symm), if_pos heq, checkEntries, hdrop]
      simp only [if_neg p.apart, hvacated, ok_bind, Bool.false_eq_true, if_false]
      rfl
    · rw [filter_cons_of_neg fun h => heq (hrange.mp h).symm, if_neg heq]
      rfl

/-- **A commit refuses the second row** when its indexed values are the first row's, unless
all of them are `NULL`. -/
theorem commitNew_iff :
    p.commitNew = .error (.conflict .uniqueCommitted) ↔
      p.oldIndexed = p.newIndexed ∧ (indexedValues p.index p.new).all (·.isNone) = false := by
  obtain ⟨ops, hops⟩ := buildTables_written p
  have hfresh : rowsFresh p.oldStore 1 (writtenTxn p) = true := by
    rw [rowsFresh, topSeq_oldStore]
    simp
  have happart : claimsApart [] (newClaims p) = true := by
    rw [newClaims]
    split
    · rfl
    · rfl
  have hcommit : p.commitNew =
      (do checkUnique p.oldStore (writtenTxn p) (newClaims p); .ok ops : Except TxnError RelOps).map
        some := by
    rw [UniquePair.commitNew, runTxn_putRow, Txn.commitOps, validateAndBuildOps]
    simp only [hops, ok_bind, hfresh, happart]
    rfl
  rw [hcommit, checkUnique_new]
  split_ifs with h
  · exact ⟨fun _ => h, fun _ => rfl⟩
  · exact ⟨fun hok => (nomatch hok), fun hc => absurd hc h⟩

/-! ## The arbiter -/

/-- A conflict is reported. -/
def ReportsHit (hit : Except SqlError (Option Hit)) : Prop := ∃ h, hit = .ok (some h)

theorem not_reportsHit_none : ¬ ReportsHit (.ok none) := by
  intro ⟨hit, h⟩
  cases h

theorem findHit_singleton (db : Db) (tx : Txn) (table : TableRow) (pending : Pending)
    (proposed : Row) (arbiter : Arbiter) (map : AList fun _ : GroupingKey => Nat) :
    findHit db tx table pending proposed [arbiter] [map] =
      hitUnder db tx table pending proposed arbiter map := by
  rw [findHit]
  cases hitUnder db tx table pending proposed arbiter map with
  | error e => rfl
  | ok hit =>
    cases hit with
    | none | some hit => rfl

theorem getRowSql_old : ∃ row, getRowSql (oldDb p) .begin p.tableId p.oldPk = .ok (some row) := by
  have hlen : p.oldPk.length = p.shape.table.pkOrdinals.length :=
    (forall₂_of_mapM p.oldPkValues).length_eq.symm
  have hlookup : ((oldDb p).snapshot p.shape.table.tableId).lookup p.oldKey =
      some p.old := by
    show ((oldDb p).snapshot p.tableId).lookup p.oldKey = _
    rw [snapshot_oldStore, AList.lookup_insert]
  refine ⟨withColumns p.old p.shape.table.pkOrdinals (p.oldPk.map some), ?_⟩
  rw [getRowSql, Txn.getRow, resolveTable_oldStore, ok_bind, if_neg (not_not.mpr hlen),
    p.oldEncoded]
  have hown : Txn.begin.ownOp p.tableId p.oldKey = none := rfl
  simp only [hown, fetchRowByEncodedPk, hlookup, Option.map_some]

/-- The lookup of a tuple in the table with the first row. -/
theorem pksByColumns_oldStore (os : List Nat) (vals : List RelationalValue) :
    pksByColumns (oldDb p) .begin p.shape.table os vals =
      .ok (if rowMatches p.old os vals then [p.oldPk] else []) := by
  have hvisible : Txn.begin.visible (oldDb p) p.tableId p.oldKey = some p.old := by
    rw [Txn.visible, snapshot_oldStore]
    exact AList.lookup_insert _
  have hkeys : Txn.begin.visibleKeys (oldDb p) p.tableId = [p.oldKey] := by
    rw [Txn.visibleKeys, snapshot_oldStore]
    have hall : (((∅ : TableRows).insert p.oldKey p.old).keys ++
        ((Txn.begin.writes.lookup p.tableId).getD ∅).keys).dedup = [p.oldKey] := by
      rw [dedup_eq_self.mpr]
      · rfl
      · exact nodup_singleton p.oldKey
    rw [hall, filter_cons_of_pos (by rw [hvisible]; rfl)]
    rfl
  have hpk : pkValuesOf p.old p.shape.table.pkOrdinals = .ok p.oldPk := by
    rw [pkValuesOf, extractPkValues_eq_ok.mp p.oldPkValues]
  have hrows : ((Txn.begin.visibleKeys (oldDb p) p.tableId).insertionSort
      fun a b => (compare a b).isLE = true).filterMap
        (Txn.begin.visible (oldDb p) p.tableId) = [p.old] := by
    rw [hkeys, insertionSort_cons, insertionSort_nil, orderedInsert_nil,
      filterMap_cons_some hvisible]
    rfl
  refine (congrArg (fun rows => (rows.filter fun row => rowMatches row os vals).mapM fun row =>
    pkValuesOf row p.shape.table.pkOrdinals) hrows).trans ?_
  cases hmatch : rowMatches p.old os vals with
  | true =>
    rw [filter_cons, hmatch, if_pos rfl, mapM_cons, hpk]
    rfl
  | false =>
    rw [filter_cons, hmatch, filter_nil]
    rfl

/-- **A committed row is found** when its values are the proposed row's and none of them is
`NULL`. -/
theorem hitCommitted_iff :
    ReportsHit p.hitCommitted ↔
      p.oldIndexed = p.newIndexed ∧ (indexedValues p.index p.new).any (·.isNone) = false := by
  have hmaps : (Pending.new [p.arbiter]).byArbiter = [∅] := rfl
  have hos : p.arbiter.ordinals = p.index.columnOrdinals := rfl
  rw [UniquePair.hitCommitted, hmaps, findHit_singleton, hitUnder, hos]
  cases htuple : tupleOf p.new p.index.columnOrdinals with
  | none =>
    rw [show (indexedValues p.index p.new).any (·.isNone) = true from tupleOf_eq_none_iff.mp htuple]
    exact iff_of_false not_reportsHit_none fun h => Bool.false_ne_true h.2.symm
  | some vals =>
    have hempty : ∀ key,
        ((∅ : AList fun _ : GroupingKey => Nat).lookup key).isSome = false := fun _ => rfl
    have hmatch : rowMatches p.old p.index.columnOrdinals vals = true ↔
        p.oldIndexed = p.newIndexed := by
      rw [rowMatches_iff_sameRow (length_of_tupleOf htuple), ← sameRow_pair_iff,
        indexedValues_eq htuple]
      rfl
    rw [any_isNone_of_tupleOf htuple, ← hmatch]
    simp only [hempty, Bool.false_eq_true, if_false, pksByColumns_oldStore, ok_bind, and_true]
    cases rowMatches p.old p.index.columnOrdinals vals with
    | false => exact iff_of_false not_reportsHit_none Bool.false_ne_true
    | true =>
      obtain ⟨row, hrow⟩ := getRowSql_old p
      refine ⟨fun _ => rfl, fun _ => ⟨.committed p.oldPk row, ?_⟩⟩
      change (getRowSql (oldDb p) .begin p.tableId p.oldPk >>= _) = _
      rw [hrow]
      rfl

theorem pksByColumns_emptyStore (os : List Nat) (vals : List RelationalValue) :
    pksByColumns (dbOf p.limits p.emptyStore 1 []) .begin p.shape.table os vals = .ok [] :=
  rfl

/-- **A row of the statement is found** when its values are the proposed row's and none of
them is `NULL`. -/
theorem hitPending_iff :
    ReportsHit p.hitPending ↔
      p.oldIndexed = p.newIndexed ∧ (indexedValues p.index p.new).any (·.isNone) = false := by
  have hid : p.arbiter.indexId = some p.index.indexId := rfl
  have hos : p.arbiter.ordinals = p.index.columnOrdinals := rfl
  have hmaps : p.pending.byArbiter = [addToArbiter p.old 0 p.arbiter ∅] := rfl
  rw [UniquePair.hitPending, hmaps, findHit_singleton, hitUnder, hos]
  cases htuple : tupleOf p.new p.index.columnOrdinals with
  | none =>
    rw [show (indexedValues p.index p.new).any (·.isNone) = true from tupleOf_eq_none_iff.mp htuple]
    exact iff_of_false not_reportsHit_none fun h => Bool.false_ne_true h.2.symm
  | some vals =>
    -- the map knows the first row by its grouping key, if that has one
    have hknown :
        ((addToArbiter p.old 0 p.arbiter ∅).lookup (vals.map groupingValue)).isSome = true ↔
        p.oldIndexed = p.newIndexed := by
      rw [addToArbiter, hid, hos, arbiterKey, ← sameRow_pair_iff]
      cases hold : tupleOf p.old p.index.columnOrdinals with
      | none =>
        refine iff_of_false Bool.false_ne_true fun hsame => ?_
        have hany := congrArg (List.any · id) (map_isNone_of_sameRow hsame)
        rw [any_map, any_map] at hany
        exact Bool.false_ne_true ((any_isNone_of_tupleOf htuple).symm.trans
          (hany.symm.trans (tupleOf_eq_none_iff.mp hold)))
      | some olds =>
        have hnan : ∀ v ∈ olds, isNan v = false := fun v hv =>
          isNan_of_encodeIndexedColumns p.oldColumns
            (indexedValues_eq hold ▸ mem_map_of_mem hv)
        rw [indexedValues_eq hold, indexedValues_eq htuple, sameRow_some_iff hnan, Option.map_some]
        by_cases hkey : olds.map groupingValue = vals.map groupingValue
        · simp only [hkey, AList.lookup_insert, Option.isSome_some]
        · simp only [AList.lookup_insert_ne (Ne.symm hkey), hkey, iff_false]
          exact Bool.false_ne_true
    rw [any_isNone_of_tupleOf htuple, ← hknown]
    simp only [pksByColumns_emptyStore, ok_bind, and_true]
    cases ((addToArbiter p.old 0 p.arbiter ∅).lookup (vals.map groupingValue)).isSome with
    | false => exact iff_of_false not_reportsHit_none Bool.false_ne_true
    | true => exact ⟨fun _ => rfl, fun _ => ⟨.pending, rfl⟩⟩

/-! ## One notion -/

/-- The three places agree whether the two rows conflict. -/
def OneNotion : Prop :=
  (ReportsHit p.hitCommitted ↔ p.commitNew = .error (.conflict .uniqueCommitted)) ∧
    (ReportsHit p.hitPending ↔ p.commitNew = .error (.conflict .uniqueCommitted)) ∧
    (p.commitNew = .error (.conflict .uniqueCommitted) ↔ p.verifyBoth = false)

/-- **The three notions of a conflict agree on two rows exactly when** the rows do not have
equal indexed values of which some are `NULL` and some are not. -/
theorem one_notion_iff :
    OneNotion p ↔
      ¬ (sameRow (indexedValues p.index p.old) (indexedValues p.index p.new) = true ∧
        (indexedValues p.index p.new).any (·.isNone) = true ∧
        (indexedValues p.index p.new).all (·.isNone) = false) := by
  rw [OneNotion, hitCommitted_iff, hitPending_iff, commitNew_iff, verifyBoth_iff,
    ← sameRow_pair_iff]
  by_cases hsame : sameRow (indexedValues p.index p.old) (indexedValues p.index p.new) = true
  · -- an index has a column, so that a tuple of `NULL`s has one
    have hall : (indexedValues p.index p.new).all (·.isNone) = true →
        (indexedValues p.index p.new).any (·.isNone) = true := by
      intro h
      obtain ⟨o, os, hos⟩ := exists_cons_of_ne_nil p.indexed
      rw [indexedValues, hos, map_cons, all_cons, Bool.and_eq_true] at h
      rw [indexedValues, hos, map_cons, any_cons, h.1, Bool.true_or]
    have heq := congrArg (List.all · id) (map_isNone_of_sameRow hsame)
    rw [all_map] at heq
    rw [show (indexedValues p.index p.old).all (·.isNone) = _ from heq]
    cases hany : (indexedValues p.index p.new).any (·.isNone) with
    | true => simp
    | false =>
      have hnot : (indexedValues p.index p.new).all (·.isNone) = false := by
        by_contra h
        rw [hall (by simpa using h)] at hany
        cases hany
      simp [hnot]
  · simp [hsame]

end

/-- Two rows `(id, 7, NULL)` of a table with `UNIQUE (a, b)`. -/
def mixedTwins : UniquePair where
  shape := ⟨⟨1, [0], 1, .active⟩,
    [⟨1, 0, "id", 2, false, none, 1, none, none⟩, ⟨1, 1, "a", 2, true, none, 1, none, none⟩,
      ⟨1, 2, "b", 2, true, none, 1, none, none⟩]⟩
  index := ⟨5, 1, "ab", .unique, [1, 2], .ready⟩
  old := [some (.integer 1), some (.integer 7), none]
  new := [some (.integer 2), some (.integer 7), none]
  oldPk := [.integer 1]
  newPk := [.integer 2]
  oldKey := [128, 0, 0, 1]
  newKey := [128, 0, 0, 2]
  oldIndexed := [1, 128, 0, 0, 7, 0]
  newIndexed := [1, 128, 0, 0, 7, 0]
  ordinals := rfl
  types c hc := by
    refine ⟨.integer, ?_⟩
    simp only [mem_cons, not_mem_nil, or_false] at hc
    rcases hc with rfl | rfl | rfl <;> rfl
  unique := rfl
  ready := rfl
  indexTable := rfl
  indexed := by decide
  indexColumns := by decide
  oldValid := by decide +kernel
  newValid := by decide +kernel
  oldPkValues := rfl
  newPkValues := rfl
  oldEncoded := by decide +kernel
  newEncoded := by decide +kernel
  apart := by decide
  oldColumns := by decide +kernel
  newColumns := by decide +kernel
  newEntry := ⟨_, rfl⟩
  newFits := ⟨_, rfl⟩

/-- The second row is no conflict to an `ON CONFLICT` clause, whether the first is
committed or of the same statement; its commit is refused all the same, and so is the index
over both. -/
theorem mixed_null_conflict_missed :
    ¬ ReportsHit mixedTwins.hitCommitted ∧ ¬ ReportsHit mixedTwins.hitPending ∧
      mixedTwins.commitNew = .error (.conflict .uniqueCommitted) ∧
        mixedTwins.verifyBoth = false := by
  refine ⟨fun h => ?_, fun h => ?_, (commitNew_iff mixedTwins).mpr (by decide),
    (verifyBoth_iff mixedTwins).mpr (by decide)⟩
  · rw [hitCommitted_iff] at h
    cases h.2
  · rw [hitPending_iff] at h
    cases h.2

end RubixDb.Proof
