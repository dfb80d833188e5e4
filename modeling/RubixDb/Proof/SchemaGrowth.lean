import RubixDb.Lib.FallibleLists
import RubixDb.Proof.RowCodec

/-!
# Rows under a growing schema

A table's shapes over its life: `create_table` and then `add_column` calls, which only
append. A row written under one shape may be decoded under a later one, or under an
earlier one by a reader that resolved the columns before an `ADD COLUMN`
(`IndexBuilder::backfill` does). The stored bytes do not say how many fields the writer
had, so an earlier reader takes too short a null bitmap once the writer's needed another
byte, and reads the rest of the bitmap as values.
-/

namespace RubixDb.Proof

open Lib List

variable {s t w v : TableShape} {column : ColumnDef} {backfillValue : Option Bytes}
    {columns new : List ColumnRow} {pkOrdinals : List Nat} {table : TableRow} {values : Row}
    {bytes : Bytes} {pkValues : List RelationalValue} {types : List RelationalType} {i n d : Nat}

/-- Shapes that `create_table` and `add_column` make. -/
inductive Reached : TableShape → Prop where
  | created {tableId : Nat} {name : String} {columns : List ColumnDef} {pkOrdinals : List Nat}
      {s : TableShape} : createTable tableId name columns pkOrdinals = .ok s → Reached s
  | grown {s t : TableShape} {column : ColumnDef} {backfillValue : Option Bytes} :
      Reached s → addColumn s column backfillValue = .ok t → Reached t

/-- `t` is what `add_column` calls make of `s`. -/
def Later (s t : TableShape) : Prop := ∃ calls, addColumns s calls = .ok t

/-- What a row written under `w` has to read as under `v`: the value written for a column
of both, its backfill value for a column that `w` did not have. -/
def ReadsBack (w v : TableShape) (values row : Row) : Prop :=
  row.length = v.columns.length ∧ ∀ c ∈ v.columns,
    if c ∈ w.columns then row[c.ordinal]? = values[c.ordinal]?
    else ∃ value, decodeBackfill c = .ok value ∧ row[c.ordinal]? = some value

/-- Every row written under `w` is read back under `v`, or refused. -/
def RowsSurvive (w v : TableShape) : Prop :=
  ∀ (values : Row) (pkValues : List RelationalValue) (bytes : Bytes) (row : Row),
    validateRowShape w.table w.columns values = .ok () →
    extractPkValues w.table values = .ok pkValues →
    buildPutValue w.table w.columns values = .ok bytes →
    decodeFullRow v.table v.columns pkValues bytes = .ok row → ReadsBack w v values row

/-! ## Shapes -/

structure WellShaped (s : TableShape) : Prop where
  ordinals : ∀ (i : Nat) (c : ColumnRow), s.columns[i]? = some c → c.ordinal = i
  added : ∀ c ∈ s.columns, c.addedInSchemaVersion ≤ s.table.schemaVersion
  count : s.columns.length ≤ u16Max
  -- a version is bumped by `add_column` only, so it cannot reach the bound it saturates at
  version : s.table.schemaVersion ≤ s.columns.length
  keys : ∀ o ∈ s.table.pkOrdinals, o < s.columns.length

/-- What `add_column` did when it succeeded. -/
theorem addColumn_ok (h : addColumn s column backfillValue = .ok t) :
    s.columns.length < u16Max ∧
      t = { table := alterTableRow s.table
            columns := s.columns ++ [columnRow (alterTableRow s.table).tableId s.columns.length
              (alterTableRow s.table).schemaVersion column backfillValue] } := by
  obtain ⟨-, -, h⟩ := bind_eq_ok.mp h
  split at h
  · cases h
  · split at h
    · cases h
    · split_ifs at h with hcount
      exact ⟨by omega, (Except.ok.inj h).symm⟩

theorem checkPkOrdinals_ok {columns : List ColumnDef}
    (h : checkPkOrdinals columns pkOrdinals = .ok ()) : ∀ o ∈ pkOrdinals, o < columns.length := by
  induction pkOrdinals with
  | nil => simp
  | cons ordinal rest ih =>
    rw [checkPkOrdinals] at h
    cases hc : columns[ordinal]? with
    | none => rw [hc] at h; cases h
    | some column =>
      rw [hc] at h
      dsimp only at h
      split_ifs at h
      intro o ho
      rcases mem_cons.mp ho with rfl | ho
      · exact (List.getElem?_eq_some_iff.mp hc).1
      · exact ih h o ho

theorem createTable_ok {tableId : Nat} {name : String} {columns : List ColumnDef}
    (h : createTable tableId name columns pkOrdinals = .ok s) :
    columns ≠ [] ∧ columns.length ≤ u16Max ∧ (∀ o ∈ pkOrdinals, o < columns.length) ∧
      s = { table := ⟨tableId, pkOrdinals, 1, .active⟩
            columns := columns.mapIdx fun ordinal column =>
              columnRow tableId ordinal 1 column none } := by
  obtain ⟨-, -, h⟩ := bind_eq_ok.mp h
  split at h
  · cases h
  · split at h
    · cases h
    · split at h
      · cases h
      · rename_i hne hcount _
        obtain ⟨_, hpk, h⟩ := bind_eq_ok.mp h
        obtain ⟨-, -, h⟩ := bind_eq_ok.mp h
        exact ⟨hne, by omega, checkPkOrdinals_ok hpk, (Except.ok.inj h).symm⟩

theorem wellShaped_created {tableId : Nat} {name : String} {columns : List ColumnDef}
    (h : createTable tableId name columns pkOrdinals = .ok s) : WellShaped s := by
  obtain ⟨hne, hcount, hkeys, rfl⟩ := createTable_ok h
  constructor
  · intro i c hc
    obtain ⟨column, -, rfl⟩ := Option.map_eq_some_iff.mp ((getElem?_mapIdx).symm.trans hc)
    rfl
  · intro c hc
    obtain ⟨i, hi, rfl⟩ := mem_mapIdx.mp hc
    exact Nat.le_refl 1
  · simpa using hcount
  · have := length_pos_iff.mpr hne
    simp only [length_mapIdx]
    omega
  · simpa using hkeys

/-- A column more keeps the shape in order. -/
theorem WellShaped.grow (hs : WellShaped s)
    (h : addColumn s column backfillValue = .ok t) : WellShaped t := by
  obtain ⟨hcount, rfl⟩ := addColumn_ok h
  have hmin : min (s.table.schemaVersion + 1) u32Max = s.table.schemaVersion + 1 := by
    have := hs.version
    have : u16Max + 1 ≤ u32Max := by decide
    omega
  constructor
  · intro i c hc
    rw [getElem?_append] at hc
    split_ifs at hc with hi
    · exact hs.ordinals i c hc
    · obtain ⟨h0, rfl⟩ := List.getElem?_eq_some_iff.mp hc
      simp only [length_singleton] at h0
      simp only [getElem_singleton, columnRow]
      omega
  · intro c hc
    rcases mem_append.mp hc with hc | hc
    · have := hs.added c hc
      simp only [alterTableRow, hmin]
      omega
    · obtain rfl := mem_singleton.mp hc
      exact Nat.le_refl _
  · simpa using hcount
  · simpa [alterTableRow, hmin] using hs.version
  · intro o ho
    have := hs.keys o ho
    simp
    omega

theorem Reached.wellShaped (h : Reached s) : WellShaped s := by
  induction h with
  | created hc => exact wellShaped_created hc
  | grown _ ha ih => exact ih.grow ha

/-- `t` has the columns of `s` and newer ones behind them. -/
structure Extends (s t : TableShape) (new : List ColumnRow) : Prop where
  pkOrdinals : t.table.pkOrdinals = s.table.pkOrdinals
  columns : t.columns = s.columns ++ new
  newer : ∀ c ∈ new, s.table.schemaVersion < c.addedInSchemaVersion
  version : s.table.schemaVersion ≤ t.table.schemaVersion

theorem Extends.trans {u : TableShape} {new' : List ColumnRow} (h : Extends s t new)
    (h' : Extends t u new') : Extends s u (new ++ new') where
  pkOrdinals := h'.pkOrdinals.trans h.pkOrdinals
  columns := by rw [h'.columns, h.columns, append_assoc]
  newer := by
    intro c hc
    rcases mem_append.mp hc with hc | hc
    · exact h.newer c hc
    · exact Nat.lt_of_le_of_lt h.version (h'.newer c hc)
  version := Nat.le_trans h.version h'.version

theorem WellShaped.extends_addColumn (hs : WellShaped s)
    (h : addColumn s column backfillValue = .ok t) : ∃ new, Extends s t new := by
  obtain ⟨hcount, rfl⟩ := addColumn_ok h
  have hbump : s.table.schemaVersion < (alterTableRow s.table).schemaVersion := by
    have := hs.version
    have : u16Max + 1 ≤ u32Max := by decide
    simp only [alterTableRow]
    omega
  exact ⟨_, rfl, rfl, by simpa [columnRow] using hbump, Nat.le_of_lt hbump⟩

theorem WellShaped.extends_addColumns {calls : List (ColumnDef × Option Bytes)} :
    ∀ {s t : TableShape}, WellShaped s → addColumns s calls = .ok t → ∃ new, Extends s t new := by
  induction calls with
  | nil =>
    intro s t _ h
    cases h
    exact ⟨[], rfl, by simp, by simp, Nat.le_refl _⟩
  | cons call calls ih =>
    intro s t hs h
    obtain ⟨s', h', h⟩ := bind_eq_ok.mp h
    obtain ⟨new, hnew⟩ := hs.extends_addColumn h'
    obtain ⟨new', hnew'⟩ := ih (hs.grow h') h
    exact ⟨_, hnew.trans hnew'⟩

/-! ## What is stored -/

theorem Extends.nonKeyColumns_eq (h : Extends s t new) :
    nonKeyColumns t.table t.columns =
      nonKeyColumns s.table s.columns ++ nonKeyColumns s.table new := by
  simp [nonKeyColumns, h.pkOrdinals, h.columns]

/-- A later reader knows which columns a row holds. -/
theorem Extends.storedColumns_later (h : Extends w v new) (hw : WellShaped w) :
    storedColumns v.table v.columns w.table.schemaVersion = nonKeyColumns w.table w.columns := by
  have hold : w.columns.filter (fun c => c.ordinal ∉ w.table.pkOrdinals ∧
      c.addedInSchemaVersion ≤ w.table.schemaVersion) = nonKeyColumns w.table w.columns := by
    apply filter_congr
    intro c hc
    simp [hw.added c hc]
  have hnew : new.filter (fun c => c.ordinal ∉ w.table.pkOrdinals ∧
      c.addedInSchemaVersion ≤ w.table.schemaVersion) = [] := by
    rw [filter_eq_nil_iff]
    intro c hc
    have := h.newer c hc
    simp
    intro _
    exact this
  rw [storedColumns, h.pkOrdinals, h.columns, filter_append, hold, hnew, append_nil]

/-- An earlier reader takes the row to hold every column it knows. -/
theorem Extends.storedColumns_earlier (h : Extends v w new) (hv : WellShaped v) :
    storedColumns v.table v.columns w.table.schemaVersion = nonKeyColumns v.table v.columns := by
  apply filter_congr
  intro c hc
  simp [Nat.le_trans (hv.added c hc) h.version]

/-- The value a row has for a column. -/
def valueOf (values : Row) (c : ColumnRow) : Option RelationalValue := values.getD c.ordinal none

/-- What `validate_row_shape` checked of each column. -/
theorem validateFields_ok (h : validateFields table values columns = .ok ()) :
    ∀ c ∈ columns, values[c.ordinal]? = some (valueOf values c) ∧
      validateField table c (valueOf values c) = .ok () := by
  induction columns with
  | nil => simp
  | cons column columns ih =>
    rw [validateFields] at h
    cases hv : values[column.ordinal]? with
    | none => rw [hv] at h; cases h
    | some value =>
      rw [hv] at h
      obtain ⟨_, hfield, h⟩ := bind_eq_ok.mp h
      intro c hc
      rcases mem_cons.mp hc with rfl | hc
      · have hval : valueOf values c = value := by
          rw [valueOf, getD_eq_getElem?_getD, hv]
          rfl
        rw [hval]
        exact ⟨hv, hfield⟩
      · exact ih h c hc

theorem validateRowShape_ok (h : validateRowShape table columns values = .ok ()) :
    values.length = columns.length ∧ ∀ c ∈ columns,
      values[c.ordinal]? = some (valueOf values c) ∧
        validateField table c (valueOf values c) = .ok () := by
  rw [validateRowShape] at h
  split_ifs at h with hlen
  exact ⟨not_not.mp hlen, validateFields_ok h⟩

/-- A value that was accepted for a column has the column's type. -/
theorem validateField_type {c : ColumnRow} {v : RelationalValue}
    (h : validateField table c (some v) = .ok ()) :
    relationalTypeFromColumn c = .ok v.valueType := by
  obtain ⟨expected, htype, h⟩ := bind_eq_ok.mp h
  obtain ⟨_, hmatch, -⟩ := bind_eq_ok.mp h
  rw [checkValueMatchesType] at hmatch
  split_ifs at hmatch with heq
  rw [htype, heq]

/-- The bytes of an accepted row. -/
theorem buildPutValue_ok (hvalid : validateRowShape table columns values = .ok ())
    (h : buildPutValue table columns values = .ok bytes) :
    bytes = encodeRow table.schemaVersion ((nonKeyColumns table columns).map (valueOf values)) ∧
      bytes.length ≤ maxRowValueBytes := by
  have hfields : nonPkFields table columns values =
      .ok ((nonKeyColumns table columns).map (valueOf values)) := by
    apply mapM_ok
    intro c hc
    rw [((validateRowShape_ok hvalid).2 c (mem_filter.mp hc).1).1]
  rw [buildPutValue, hfields, ok_bind] at h
  dsimp only at h
  split_ifs at h with hsize
  cases h
  exact ⟨rfl, by omega⟩

/-! ## Putting a row together -/

/-- What `mergeRow` puts at a column's place. -/
def MergedAt (table : TableRow) (pkValues : List RelationalValue) (rowVersion : Nat) (values : Row)
    (c : ColumnRow) (field : Option RelationalValue) : Prop :=
  if c.ordinal ∈ table.pkOrdinals then
    pkValues[table.pkOrdinals.idxOf c.ordinal]? = field ∧ field.isSome
  else if rowVersion < c.addedInSchemaVersion then decodeBackfill c = .ok field
  else field = valueOf values c

/-- What a merged row holds, column by column. -/
theorem mergeRow_ok {rowVersion : Nat} :
    ∀ {row : Row}, mergeRow table pkValues rowVersion columns
        ((storedColumns table columns rowVersion).map (valueOf values)) = .ok row →
      List.Forall₂ (MergedAt table pkValues rowVersion values) columns row := by
  induction columns with
  | nil =>
    intro row h
    cases h
    exact .nil
  | cons c columns ih =>
    intro row h
    by_cases hkey : c.ordinal ∈ table.pkOrdinals
    · -- a key column is read from the key
      have hstored : storedColumns table (c :: columns) rowVersion =
          storedColumns table columns rowVersion := by
        simp [storedColumns, hkey]
      rw [hstored, mergeRow.eq_def] at h
      dsimp only at h
      rw [if_neg (by simp [hkey]), if_pos hkey] at h
      cases hpk : pkValues[table.pkOrdinals.idxOf c.ordinal]? with
      | none => rw [hpk] at h; cases h
      | some value =>
        rw [hpk] at h
        obtain ⟨rest, hrest, h⟩ := bind_eq_ok.mp h
        cases h
        refine .cons ?_ (ih hrest)
        rw [MergedAt, if_pos hkey]
        exact ⟨hpk, rfl⟩
    · by_cases hlate : rowVersion < c.addedInSchemaVersion
      · -- a column younger than the row takes its default
        have hstored : storedColumns table (c :: columns) rowVersion =
            storedColumns table columns rowVersion := by
          simp [storedColumns, Nat.not_le.mpr hlate]
        rw [hstored, mergeRow.eq_def] at h
        dsimp only at h
        rw [if_pos ⟨hkey, hlate⟩] at h
        obtain ⟨value, hvalue, h⟩ := bind_eq_ok.mp h
        obtain ⟨rest, hrest, h⟩ := bind_eq_ok.mp h
        cases h
        refine .cons ?_ (ih hrest)
        rw [MergedAt, if_neg hkey, if_pos hlate]
        exact hvalue
      · -- a column stored with the row
        have hstored : storedColumns table (c :: columns) rowVersion =
            c :: storedColumns table columns rowVersion := by
          simp [storedColumns, hkey, Nat.not_lt.mp hlate]
        rw [hstored, mergeRow.eq_def] at h
        dsimp only at h
        rw [if_neg (by simp [hlate]), if_neg hkey] at h
        obtain ⟨rest, hrest, h⟩ := bind_eq_ok.mp h
        cases h
        refine .cons ?_ (ih hrest)
        rw [MergedAt, if_neg hkey, if_neg hlate]

/-- The key values come back at their columns' places. -/
theorem extractPkValues_ok (h : extractPkValues table values = .ok pkValues) {o : Nat}
    (ho : o ∈ table.pkOrdinals) :
    ∃ x, pkValues[table.pkOrdinals.idxOf o]? = some x ∧ values[o]? = some (some x) := by
  have hall := forall₂_of_mapM h
  have hidx : table.pkOrdinals.idxOf o < table.pkOrdinals.length := idxOf_lt_length_of_mem ho
  have hidx' : table.pkOrdinals.idxOf o < pkValues.length := hall.length_eq ▸ hidx
  have hat := (forall₂_iff_get.mp hall).2 _ hidx hidx'
  simp only [get_eq_getElem, getElem_idxOf] at hat
  refine ⟨_, getElem?_eq_getElem hidx', ?_⟩
  split at hat
  · rename_i value hvalue
    rw [hvalue, Except.ok.inj hat]
  · cases hat

/-- **A row is read back** by a reader who takes it to hold the first columns of those it
was written with, if the fields decode to the values of these. -/
theorem readsBack_of_decodeRow {row : Row} (hw : WellShaped w) (hv : WellShaped v)
    (hpk : v.table.pkOrdinals = w.table.pkOrdinals) (hcommon : ∀ c ∈ v.columns, c ∈ w.columns ∨
      (w.columns.length ≤ c.ordinal ∧ w.table.schemaVersion < c.addedInSchemaVersion))
    (hvalid : validateRowShape w.table w.columns values = .ok ())
    (hkeys : extractPkValues w.table values = .ok pkValues)
    (hversion : peekRowSchemaVersion bytes = .ok w.table.schemaVersion)
    (htypes : (storedColumns v.table v.columns w.table.schemaVersion).mapM
      relationalTypeFromColumn = .ok types)
    (hfields : decodeRow bytes types = .ok (w.table.schemaVersion,
      (storedColumns v.table v.columns w.table.schemaVersion).map (valueOf values)))
    (hrow : decodeFullRow v.table v.columns pkValues bytes = .ok row) :
    ReadsBack w v values row := by
  rw [decodeFullRow, hversion, ok_bind, htypes, ok_bind, hfields] at hrow
  have hmerged := mergeRow_ok hrow
  refine ⟨hmerged.length_eq.symm, ?_⟩
  intro c hc
  -- the column stands at its ordinal
  obtain ⟨i, hi, rfl⟩ := mem_iff_getElem.mp hc
  have hord : v.columns[i].ordinal = i := hv.ordinals i _ (getElem?_eq_getElem hi)
  have hirow : i < row.length := hmerged.length_eq ▸ hi
  have hat := (forall₂_iff_get.mp hmerged).2 i hi hirow
  simp only [get_eq_getElem] at hat
  have hget : row[v.columns[i].ordinal]? = some row[i] := by
    rw [hord]
    exact getElem?_eq_getElem hirow
  rw [hget]
  rcases hcommon _ hc with hold | ⟨hnew, hlate⟩
  · rw [if_pos hold]
    have hval := ((validateRowShape_ok hvalid).2 _ hold).1
    rw [MergedAt] at hat
    split at hat
    · -- a key column
      rename_i hkey
      rw [hpk] at hkey hat
      obtain ⟨x, hx, hvx⟩ := extractPkValues_ok hkeys hkey
      rw [hvx, ← hat.1, hx]
    · rw [if_neg (Nat.not_lt.mpr (hw.added _ hold))] at hat
      rw [hval, hat]
  · have hnot : v.columns[i] ∉ w.columns := by
      intro hmem
      have := hw.added _ hmem
      omega
    have hkey : v.columns[i].ordinal ∉ v.table.pkOrdinals := by
      intro hmem
      rw [hpk] at hmem
      have := hw.keys _ hmem
      omega
    rw [if_neg hnot]
    rw [MergedAt, if_neg hkey, if_pos hlate] at hat
    exact ⟨_, hat, rfl⟩

theorem peekRowSchemaVersion_encodeRow {schemaVersion : Nat} (h : schemaVersion < 2 ^ 32)
    (fields : Row) : peekRowSchemaVersion (encodeRow schemaVersion fields) = .ok schemaVersion := by
  have hlen := length_encodeRow schemaVersion fields
  have hfield : ((encodeRow schemaVersion fields).drop 1).take 4 = leBytes 4 schemaVersion :=
    take_left' (length_leBytes 4 _)
  rw [peekRowSchemaVersion, if_neg (by omega), hfield, leNat_leBytes (by simpa using h)]

/-- The types of the stored columns are those of the values that were accepted for them. -/
theorem typed_of_mapM {stored extra : List ColumnRow}
    (hvalid : validateRowShape table columns values = .ok ())
    (hsplit : nonKeyColumns table columns = stored ++ extra)
    (htypes : stored.mapM relationalTypeFromColumn = .ok types) :
    Typed types ((nonKeyColumns table columns).map (valueOf values)) := by
  have hall := forall₂_of_mapM htypes
  intro i t v ht hv
  obtain ⟨hi, rfl⟩ := List.getElem?_eq_some_iff.mp ht
  have hi' : i < stored.length := hall.length_eq.symm ▸ hi
  have hat := (forall₂_iff_get.mp hall).2 i hi' hi
  have hget : (nonKeyColumns table columns)[i]? = some stored[i] := by
    rw [hsplit, getElem?_append_left hi', getElem?_eq_getElem hi']
  rw [getElem?_map, hget] at hv
  have hmem : stored[i] ∈ columns := (mem_filter.mp (mem_of_getElem? hget)).1
  have hfield := ((validateRowShape_ok hvalid).2 _ hmem).2
  rw [Option.some.inj hv] at hfield
  exact Except.ok.inj (hat.symm.trans (validateField_type hfield))

/-- **Enough for a row to survive**: the reader takes it to hold the first of the columns
it holds, and none of them or so many that the bitmap has the same width. -/
theorem survives_of_width {w v : TableShape} {extra : List ColumnRow}
    (hw : WellShaped w) (hv : WellShaped v)
    (hpk : v.table.pkOrdinals = w.table.pkOrdinals)
    (hcommon : ∀ c ∈ v.columns, c ∈ w.columns ∨
      (w.columns.length ≤ c.ordinal ∧ w.table.schemaVersion < c.addedInSchemaVersion))
    (hsplit : nonKeyColumns w.table w.columns =
      storedColumns v.table v.columns w.table.schemaVersion ++ extra)
    (hwidth : storedColumns v.table v.columns w.table.schemaVersion = [] ∨
      nullBitmapLen (storedColumns v.table v.columns w.table.schemaVersion).length =
        nullBitmapLen w.storedCount) :
    RowsSurvive w v := by
  intro values pkValues bytes row hvalid hkeys hput hrow
  obtain ⟨rfl, hsize⟩ := buildPutValue_ok hvalid hput
  have hversion : w.table.schemaVersion < 2 ^ 32 := by
    have := hw.version
    have := hw.count
    have : u16Max < 2 ^ 32 := by decide
    omega
  have hsize' : (encodeRow w.table.schemaVersion
      ((nonKeyColumns w.table w.columns).map (valueOf values))).length < 2 ^ 32 :=
    Nat.lt_of_le_of_lt hsize (by decide)
  have hpeek := peekRowSchemaVersion_encodeRow hversion
    ((nonKeyColumns w.table w.columns).map (valueOf values))
  -- the reader got as far as the fields
  have hrow' := hrow
  rw [decodeFullRow, hpeek, ok_bind] at hrow'
  obtain ⟨types, htypes, -⟩ := bind_eq_ok.mp hrow'
  have hlen : types.length = (storedColumns v.table v.columns w.table.schemaVersion).length :=
    (forall₂_of_mapM htypes).length_eq.symm
  refine readsBack_of_decodeRow hw hv hpk hcommon hvalid hkeys hpeek htypes ?_ hrow
  rcases hwidth with hnil | hwidth
  · -- a reader without columns reads none
    have hnone : types.length = 0 := by rw [hlen, hnil]; rfl
    rw [decodeRow_encodeRow_eq hversion (Nat.le_trans (Nat.le_of_lt hsize') (by decide))
      (by rw [hnone]; exact Nat.zero_le _), hnone, hnil]
    rfl
  · have hcount :
        types.length ≤ ((nonKeyColumns w.table w.columns).map (valueOf values)).length := by
      rw [length_map, hsplit, length_append]
      omega
    rw [decodeRow_encodeRow hversion hsize' hcount
      (by rw [length_map, hlen]; exact hwidth) (typed_of_mapM hvalid hsplit htypes),
      hsplit, map_append, take_left' (by rw [length_map, hlen])]

/-- A later reader: the columns it takes the row to hold are those it does hold. -/
theorem survives_later (hw : WellShaped w) (hv : WellShaped v)
    (h : Later w v) : RowsSurvive w v := by
  obtain ⟨calls, hcalls⟩ := h
  obtain ⟨new, hnew⟩ := hw.extends_addColumns hcalls
  have hstored := hnew.storedColumns_later hw
  refine @survives_of_width w v [] hw hv hnew.pkOrdinals ?_ (by rw [hstored, append_nil])
    (.inr (by rw [hstored]; rfl))
  intro c hc
  by_cases hold : c ∈ w.columns
  · exact .inl hold
  · rw [hnew.columns] at hc
    have hmem : c ∈ new := (mem_append.mp hc).resolve_left hold
    refine .inr ⟨?_, hnew.newer c hmem⟩
    -- a new column's ordinal is its place, behind the old ones
    obtain ⟨i, hi, rfl⟩ := mem_iff_getElem.mp hmem
    have hord := hv.ordinals (w.columns.length + i) new[i] (by
      rw [hnew.columns, getElem?_append_right (by omega), Nat.add_sub_cancel_left,
        getElem?_eq_getElem hi])
    omega

/-- An earlier reader, if the columns it does not know of need no further byte of bitmap. -/
theorem survives_earlier (hw : WellShaped w) (hv : WellShaped v) (h : Later v w)
    (hwidth : v.storedCount = 0 ∨ nullBitmapLen v.storedCount = nullBitmapLen w.storedCount) :
    RowsSurvive w v := by
  obtain ⟨calls, hcalls⟩ := h
  obtain ⟨new, hnew⟩ := hv.extends_addColumns hcalls
  have hstored := hnew.storedColumns_earlier hv
  refine survives_of_width hw hv hnew.pkOrdinals.symm ?_
    (by rw [hstored]; exact hnew.nonKeyColumns_eq) ?_
  · intro c hc
    rw [hnew.columns]
    exact .inl (mem_append_left _ hc)
  · rw [hstored]
    exact hwidth.imp eq_nil_of_length_eq_zero id

/-! ## A table of booleans

One key column and nullable BOOLEAN columns added one at a time: the table whose rows show
that nothing weaker is enough. -/

/-- Each column has a character of its own for a name. -/
def boolDef (i : Nat) : ColumnDef where
  name := String.singleton (Char.ofNat (0x10000 + i))
  dataType := 1
  nullable := true

def keyDef : ColumnDef := { name := "k", dataType := 1, nullable := false }

/-- The table after `n` columns were added. -/
def boolShape (n : Nat) : TableShape where
  table := ⟨1, [0], n + 1, .active⟩
  columns := columnRow 1 0 1 keyDef none ::
    (List.range n).map fun i => columnRow 1 (i + 1) (i + 2) (boolDef i) none

theorem boolDef_toNat (hi : i ≤ u16Max) : (Char.ofNat (0x10000 + i)).toNat = 0x10000 + i := by
  have : u16Max = 65535 := rfl
  rw [Char.toNat_ofNat, if_pos (.inr ⟨by omega, by omega⟩)]

theorem boolDef_name_inj {j : Nat} (hi : i ≤ u16Max) (hj : j ≤ u16Max)
    (h : (boolDef i).name = (boolDef j).name) : i = j := by
  have hchar : Char.ofNat (0x10000 + i) = Char.ofNat (0x10000 + j) := by
    have := congrArg String.toList h
    simpa [boolDef] using this
  have := congrArg Char.toNat hchar
  rw [boolDef_toNat hi, boolDef_toNat hj] at this
  omega

theorem boolDef_name_ne_key (hi : i ≤ u16Max) : (boolDef i).name ≠ keyDef.name := by
  intro h
  have hchar : Char.ofNat (0x10000 + i) = 'k' := by
    have := congrArg String.toList h
    simpa [boolDef, keyDef] using this
  have := congrArg Char.toNat hchar
  rw [boolDef_toNat hi] at this
  have hk : 'k'.toNat = 107 := rfl
  omega

theorem validateName_boolDef (i : Nat) : validateName (boolDef i).name "column" = .ok () := by
  have hne : (boolDef i).name ≠ "" := by
    intro h
    have := congrArg String.toList h
    simp [boolDef] at this
  have hsize : ¬ 255 < (boolDef i).name.utf8ByteSize := by
    have := Char.utf8Size_le_four (Char.ofNat (0x10000 + i))
    simp [boolDef]
    omega
  rw [validateName, if_neg hne, if_neg hsize]

theorem addColumn_boolShape (hn : n + 1 < u16Max) :
    addColumn (boolShape n) (boolDef n) none = .ok (boolShape (n + 1)) := by
  have hnew : (boolDef n).name ∉ (boolShape n).columns.map (·.name) := by
    intro h
    simp only [boolShape, map_cons, map_map, mem_cons, mem_map,
      mem_range] at h
    rcases h with h | ⟨i, hi, h⟩
    · exact boolDef_name_ne_key (by omega) h
    · have := boolDef_name_inj (by omega) (by omega) h
      omega
  have hlen : (boolShape n).columns.length = n + 1 := by simp [boolShape]
  have hversion : min (n + 1 + 1) u32Max = n + 2 := by
    have : u16Max ≤ u32Max := by decide
    omega
  rw [addColumn, validateName_boolDef, if_neg (by simp [boolShape]), if_neg hnew,
    if_neg (by omega)]
  simp [boolShape, alterTableRow, hversion, range_succ]

theorem reached_boolShape (hn : n < u16Max) : Reached (boolShape n) := by
  induction n with
  | zero =>
    have hcreate : createTable 1 "t" [keyDef] [0] = .ok (boolShape 0) := by decide +kernel
    exact .created hcreate
  | succ n ih => exact .grown (ih (by omega)) (addColumn_boolShape hn)

theorem later_boolShape (hn : n + d < u16Max) : Later (boolShape n) (boolShape (n + d)) := by
  induction d generalizing n with
  | zero => exact ⟨[], rfl⟩
  | succ d ih =>
    obtain ⟨calls, hcalls⟩ := ih (n := n + 1) (by omega)
    refine ⟨(boolDef n, none) :: calls, ?_⟩
    rw [addColumns, addColumn_boolShape (by omega), ok_bind, hcalls, Nat.add_right_comm n 1 d]
    rfl

theorem nonKeyColumns_boolShape (n : Nat) :
    nonKeyColumns (boolShape n).table (boolShape n).columns =
      (List.range n).map fun i => columnRow 1 (i + 1) (i + 2) (boolDef i) none := by
  simp [nonKeyColumns, boolShape, columnRow, filter_map, Function.comp_def]

theorem storedCount_boolShape (n : Nat) : (boolShape n).storedCount = n := by
  rw [TableShape.storedCount, nonKeyColumns_boolShape]
  simp

/-! ## The row that is misread -/

/-- `FALSE` in the first `n` columns, `NULL` in the `d` behind them. -/
def falseFields (n d : Nat) : Row :=
  List.replicate n (some (.boolean false)) ++ List.replicate d none

def falseRow (n d : Nat) : Row := some (.boolean true) :: falseFields n d

@[simp] theorem length_falseFields (n d : Nat) : (falseFields n d).length = n + d := by
  simp [falseFields]

theorem validateFields_of (h : ∀ c ∈ columns, ∃ value, values[c.ordinal]? = some value ∧
      validateField table c value = .ok ()) :
    validateFields table values columns = .ok () := by
  induction columns with
  | nil => rfl
  | cons c columns ih =>
    obtain ⟨value, hvalue, hfield⟩ := h c (by simp)
    rw [validateFields, hvalue]
    dsimp only
    rw [hfield]
    exact ih fun c hc => h c (mem_cons_of_mem _ hc)

theorem validate_falseRow (n d : Nat) :
    validateRowShape (boolShape (n + d)).table (boolShape (n + d)).columns (falseRow n d) =
      .ok () := by
  rw [validateRowShape, if_neg (by simp [boolShape, falseRow])]
  apply validateFields_of
  intro c hc
  rcases mem_cons.mp hc with rfl | hc
  · exact ⟨_, rfl, rfl⟩
  · obtain ⟨i, hi, rfl⟩ := mem_map.mp hc
    rw [mem_range] at hi
    by_cases hin : i < n
    · refine ⟨some (.boolean false), ?_, rfl⟩
      simp [falseRow, falseFields, columnRow, getElem?_append, hin]
    · refine ⟨none, ?_, ?_⟩
      · have : i - n < d := by omega
        simp [falseRow, falseFields, columnRow, getElem?_append, hin, this]
      · simp [validateField, columnRow, boolDef, boolShape]

theorem stored_falseRow (n d : Nat) :
    (nonKeyColumns (boolShape (n + d)).table (boolShape (n + d)).columns).map
      (valueOf (falseRow n d)) = falseFields n d := by
  rw [nonKeyColumns_boolShape]
  apply ext_getElem
  · simp
  · intro i hi hi'
    simp [valueOf, columnRow, falseRow, getD_eq_getElem?_getD, getElem?_eq_getElem hi']

theorem length_encodeValues_falseFields (n d : Nat) :
    (encodeValues encodeValue (falseFields n d)).length = n := by
  rw [falseFields, encodeValues_append]
  have hfalse : encodeValues encodeValue (List.replicate n (some (.boolean false))) =
      List.replicate n 0 := by
    induction n with
    | zero => rfl
    | succ n ih => rw [replicate_succ, encodeValues_cons_some, ih]; rfl
  have hnull : encodeValues encodeValue (List.replicate d none) = [] := by
    induction d with
    | zero => rfl
    | succ d ih => rw [replicate_succ, encodeValues_cons_none, ih]
  simp [hfalse, hnull]

/-- The row as it is stored. -/
def falseBytes (n d : Nat) : Bytes := encodeRow (n + d + 1) (falseFields n d)

theorem length_falseBytes (n d : Nat) :
    (falseBytes n d).length = 5 + nullBitmapLen (n + d) + n := by
  rw [falseBytes, length_encodeRow, length_encodeValues_falseFields, length_falseFields]

theorem buildPutValue_falseRow (h : n + d < u16Max) :
    buildPutValue (boolShape (n + d)).table (boolShape (n + d)).columns (falseRow n d) =
      .ok (falseBytes n d) := by
  have hfields : nonPkFields (boolShape (n + d)).table (boolShape (n + d)).columns (falseRow n d) =
      .ok (falseFields n d) := by
    rw [← stored_falseRow]
    apply mapM_ok
    intro c hc
    rw [((validateRowShape_ok (validate_falseRow n d)).2 c (mem_filter.mp hc).1).1]
  have hsize : (falseBytes n d).length ≤ maxRowValueBytes := by
    have : u16Max = 65535 := rfl
    have : maxRowValueBytes = 1048576 := rfl
    rw [length_falseBytes, nullBitmapLen]
    omega
  rw [buildPutValue, hfields]
  exact if_neg (Nat.not_lt.mpr hsize)

/-- Booleans decode from whatever bytes there are. -/
theorem decodeFields_booleans {bitmap : Bytes} (htypes : ∀ i, types.getD i .boolean = .boolean)
    (hsize : bytes.length ≤ usizeMax) {n i pos : Nat}
    (hbits : ∀ k, i ≤ k → k < i + n → testBit bitmap k = false) (hpos : pos + n ≤ bytes.length) :
    decodeFields (fun i pos => decodeValue (types.getD i .boolean) bytes pos) bitmap n i pos =
      .ok (((bytes.drop pos).take n).map fun b => some (.boolean (b.toNat ≠ 0))) := by
  induction n generalizing i pos with
  | zero => rfl
  | succ n ih =>
    have hdrop : bytes.drop pos = bytes[pos] :: bytes.drop (pos + 1) :=
      drop_eq_getElem_cons (by omega)
    have hread : readU8 bytes pos = .ok (bytes[pos].toNat, pos + 1) := by
      rw [readU8, readLe, readBytes, if_neg (by omega), if_neg (by omega), hdrop]
      exact congrArg Except.ok (Prod.ext (Nat.add_zero _) rfl)
    have hrest := @ih (i + 1) (pos + 1)
      (fun k hk hk' => hbits k (by omega) (by omega)) (by omega)
    rw [decodeFields, hbits i (Nat.le_refl _) (by omega)]
    simp only [Bool.false_eq_true, if_false]
    rw [htypes, decodeValue, hread, ok_bind, ok_bind, hrest, hdrop]
    rfl

/-- Fields go to their columns when all are stored. -/
theorem mergeRow_stored {table : TableRow} {pkValues : List RelationalValue} {rowVersion : Nat}
    {columns : List ColumnRow} {fields : Row} (hlen : fields.length = columns.length)
    (h : ∀ c ∈ columns, c.ordinal ∉ table.pkOrdinals ∧ c.addedInSchemaVersion ≤ rowVersion) :
    mergeRow table pkValues rowVersion columns fields = .ok fields := by
  induction columns generalizing fields with
  | nil =>
    obtain rfl := eq_nil_of_length_eq_zero hlen
    rfl
  | cons c columns ih =>
    obtain ⟨hkey, hold⟩ := h c (by simp)
    cases fields with
    | nil => cases hlen
    | cons field fields =>
      rw [mergeRow.eq_def]
      dsimp only
      rw [if_neg (by simp [Nat.not_lt.mpr hold]), if_neg hkey,
        ih (by simpa using hlen) fun c hc => h c (mem_cons_of_mem _ hc)]
      rfl

/-- The byte of the row's bitmap behind those that a reader of `n` columns takes for it. -/
def strayByte (n d : Nat) : UInt8 := (nullBitmap (falseFields n d)).getD (nullBitmapLen n) 0

/-- A reader of `n` columns finds none of them `NULL` ... -/
theorem decodeRow_falseBytes (hcount : n + d < u16Max)
    (hwidth : nullBitmapLen n < nullBitmapLen (n + d)) :
    decodeRow (falseBytes n d) (List.replicate n RelationalType.boolean) = .ok (n + d + 1,
      (((falseBytes n d).drop (5 + nullBitmapLen n)).take n).map
        fun b => some (.boolean (b.toNat ≠ 0))) := by
  have hu16 : u16Max = 65535 := rfl
  have hlen := length_falseBytes n d
  have hsize : (falseBytes n d).length ≤ usizeMax := by
    have : usizeMax = 2 ^ 64 - 1 := rfl
    rw [hlen, nullBitmapLen]
    omega
  have hbits : ∀ k, 0 ≤ k → k < 0 + n →
      testBit ((nullBitmap (falseFields n d)).take (nullBitmapLen n)) k = false := by
    intro k _ hk
    have hfalse : (falseFields n d)[k]? = some (some (.boolean false)) := by
      rw [falseFields, getElem?_append_left (by simp; omega), getElem?_replicate,
        if_pos (by omega)]
    rw [testBit_take (by have := le_nullBitmapLen n; omega), testBit_nullBitmap, hfalse]
    rfl
  rw [falseBytes] at hlen hsize ⊢
  rw [decodeRow_encodeRow_eq (by omega) hsize
    (by rw [length_replicate, length_falseFields]; exact Nat.le_of_lt hwidth),
    length_replicate, decodeFields_booleans _ hsize hbits (by omega), ok_bind]
  intro i
  rw [getD_eq_getElem?_getD, getElem?_replicate]
  split <;> rfl

/-- ... and reads on in the bitmap. -/
theorem drop_falseBytes (hwidth : nullBitmapLen n < nullBitmapLen (n + d)) :
    ∃ bs, (falseBytes n d).drop (5 + nullBitmapLen n) = strayByte n d :: bs := by
  have hin : nullBitmapLen n < (nullBitmap (falseFields n d)).length := by simpa using hwidth
  have hdrop : (falseBytes n d).drop (5 + nullBitmapLen n) =
      (nullBitmap (falseFields n d)).drop (nullBitmapLen n) ++
        encodeValues encodeValue (falseFields n d) := by
    rw [← drop_drop]
    show (nullBitmap (falseFields n d) ++ _).drop _ = _
    rw [drop_append_of_le_length (Nat.le_of_lt hin)]
  rw [hdrop, drop_eq_getElem_cons hin, strayByte, getD_eq_getElem?_getD, getElem?_eq_getElem hin]
  exact ⟨_, rfl⟩

/-- So the stray byte is what it has for its first column. -/
theorem decode_falseRow (hcount : n + 1 + d < u16Max)
    (hwidth : nullBitmapLen (n + 1) < nullBitmapLen (n + 1 + d)) :
    ∃ rest, decodeFullRow (boolShape (n + 1)).table (boolShape (n + 1)).columns [.boolean true]
        (falseBytes (n + 1) d) =
      .ok (some (.boolean true) :: some (.boolean ((strayByte (n + 1) d).toNat ≠ 0)) :: rest) := by
  have hu16 : u16Max = 65535 := rfl
  have hstored : storedColumns (boolShape (n + 1)).table (boolShape (n + 1)).columns
      (n + 1 + d + 1) = nonKeyColumns (boolShape (n + 1)).table (boolShape (n + 1)).columns := by
    apply filter_congr
    intro c hc
    have := (reached_boolShape (n := n + 1) (by omega)).wellShaped.added c hc
    simp only [boolShape] at this
    simp
    omega
  have htypes : (storedColumns (boolShape (n + 1)).table (boolShape (n + 1)).columns
      (n + 1 + d + 1)).mapM relationalTypeFromColumn =
        .ok (List.replicate (n + 1) RelationalType.boolean) := by
    rw [hstored, nonKeyColumns_boolShape, mapM_ok (g := fun _ => RelationalType.boolean)]
    · simp [Function.comp_def]
    · intro c hc
      obtain ⟨i, -, rfl⟩ := mem_map.mp hc
      rfl
  have hpeek : peekRowSchemaVersion (falseBytes (n + 1) d) = .ok (n + 1 + d + 1) :=
    peekRowSchemaVersion_encodeRow (by omega) _
  obtain ⟨bs, hbs⟩ := drop_falseBytes hwidth
  have hbslen : n ≤ bs.length := by
    have := congrArg List.length hbs
    rw [length_drop, length_cons, length_falseBytes] at this
    omega
  refine ⟨(bs.take n).map fun b => some (.boolean (b.toNat ≠ 0)), ?_⟩
  rw [decodeFullRow, hpeek, ok_bind, htypes, ok_bind, decodeRow_falseBytes hcount hwidth, hbs,
    take_succ_cons, map_cons]
  -- the key column, and then every column is a stored one
  have hmerge := @mergeRow_stored (boolShape (n + 1)).table [.boolean true] (n + 1 + d + 1)
    ((List.range (n + 1)).map fun i => columnRow 1 (i + 1) (i + 2) (boolDef i) none)
    (some (.boolean ((strayByte (n + 1) d).toNat ≠ 0)) ::
      (bs.take n).map fun b => some (.boolean (b.toNat ≠ 0)))
    (by simp [hbslen])
    (by
      intro c hc
      obtain ⟨i, hi, rfl⟩ := mem_map.mp hc
      rw [mem_range] at hi
      simp only [columnRow, boolShape, mem_singleton]
      omega)
  show mergeRow (boolShape (n + 1)).table _ _ (columnRow 1 0 1 keyDef none :: _) _ = _
  rw [mergeRow.eq_def]
  dsimp only
  rw [if_neg (by simp [columnRow, boolShape]), hmerge]
  rfl

/-- The stray byte has the bit of a column that is `NULL`. -/
theorem strayByte_ne_zero (hwidth : nullBitmapLen n < nullBitmapLen (n + d)) :
    strayByte n d ≠ 0 := by
  have hge := le_nullBitmapLen n
  have hlt : 8 * nullBitmapLen n < n + d := by
    simp only [nullBitmapLen] at hwidth ⊢
    omega
  have hnone : (falseFields n d)[8 * nullBitmapLen n]? = some none := by
    rw [falseFields, getElem?_append_right (by simpa using hge), getElem?_replicate,
      if_pos (by rw [length_replicate]; omega)]
  have hnull : testBit (nullBitmap (falseFields n d)) (8 * nullBitmapLen n) = true := by
    rw [testBit_nullBitmap, hnone]
    rfl
  have := getD_ne_zero_of_testBit hnull
  rwa [Nat.mul_div_cancel_left _ (by decide)] at this

/-- **Anything less is not enough**: a reader that takes too few bytes of bitmap misreads a
row. -/
theorem not_survives_boolShape (hcount : n + 1 + d < u16Max)
    (hwidth : nullBitmapLen (n + 1) < nullBitmapLen (n + 1 + d)) :
    ¬ RowsSurvive (boolShape (n + 1 + d)) (boolShape (n + 1)) := by
  intro h
  obtain ⟨rest, hrow⟩ := decode_falseRow hcount hwidth
  have hread := h (falseRow (n + 1) d) [.boolean true] _ _ (validate_falseRow (n + 1) d) rfl
    (buildPutValue_falseRow hcount) hrow
  -- the first column was written `FALSE` ...
  have hcolumn : ∀ m, columnRow 1 1 2 (boolDef 0) none ∈ (boolShape (m + 1)).columns := by
    intro m
    exact mem_cons_of_mem _ (mem_map.mpr ⟨0, by simp, rfl⟩)
  have hboth := hread.2 _ (hcolumn n)
  rw [if_pos (by rw [Nat.add_right_comm]; exact hcolumn (n + d))] at hboth
  have hfalse : (falseRow (n + 1) d)[1]? = some (some (.boolean false)) := by
    simp [falseRow, falseFields, replicate_succ]
  rw [show (columnRow 1 1 2 (boolDef 0) none).ordinal = 1 from rfl, hfalse] at hboth
  -- ... and is read as the stray byte
  have htrue : (strayByte (n + 1) d).toNat = 0 := by simpa using hboth
  exact strayByte_ne_zero hwidth (UInt8.toNat_inj.mp htrue)

/-! ## The result -/

/-- Writers with `nw` stored columns and readers with `nv`, of one table: every row is read
back or refused exactly when the reader knows as many columns as the writer, or knows none,
or the two null bitmaps have one width. -/
theorem rows_survive_growth_iff {nw nv : Nat} (hnw : nw < u16Max) :
    (∀ w v : TableShape, Reached w → Reached v → Later w v ∨ Later v w →
        w.storedCount = nw → v.storedCount = nv → RowsSurvive w v) ↔
      nw ≤ nv ∨ nv = 0 ∨ nullBitmapLen nv = nullBitmapLen nw := by
  constructor
  · intro h
    by_contra hcond
    push Not at hcond
    obtain ⟨hlt, hpos, hwidth⟩ := hcond
    obtain ⟨n, rfl⟩ : ∃ n, nv = n + 1 := ⟨nv - 1, by omega⟩
    obtain ⟨d, rfl⟩ : ∃ d, nw = n + 1 + d := ⟨nw - (n + 1), by omega⟩
    have hwidth' : nullBitmapLen (n + 1) < nullBitmapLen (n + 1 + d) := by
      simp only [nullBitmapLen] at hwidth ⊢
      omega
    exact not_survives_boolShape hnw hwidth' (h _ _ (reached_boolShape hnw)
      (reached_boolShape (by omega)) (.inr (later_boolShape hnw)) (storedCount_boolShape _)
      (storedCount_boolShape _))
  · intro hcond w v hw hv hlater hcw hcv
    rcases hlater with hlater | hlater
    · exact survives_later hw.wellShaped hv.wellShaped hlater
    · -- an earlier reader that knows as many columns knows them all
      have hle : v.storedCount ≤ w.storedCount := by
        obtain ⟨calls, hcalls⟩ := hlater
        obtain ⟨new, hnew⟩ := hv.wellShaped.extends_addColumns hcalls
        rw [TableShape.storedCount, TableShape.storedCount, hnew.nonKeyColumns_eq,
          length_append]
        omega
      refine survives_earlier hw.wellShaped hv.wellShaped hlater ?_
      rw [hcv, hcw]
      rw [hcv, hcw] at hle
      rcases hcond with hge | hzero | hwidth
      · exact .inr (by rw [Nat.le_antisymm hle hge])
      · exact .inl hzero
      · exact .inr hwidth

/-- A reader of nine columns and a writer of sixteen: two bytes of bitmap for both. -/
theorem rows_survive_growth_nine_to_sixteen :
    16 < u16Max ∧ ∀ w v : TableShape, Reached w → Reached v → Later w v ∨ Later v w →
      w.storedCount = 16 → v.storedCount = 9 → RowsSurvive w v :=
  ⟨by decide, (rows_survive_growth_iff (by decide)).mpr (by decide)⟩

/-- A reader that resolved eight columns before the ninth was added. The row holds `FALSE`
eight times and `NULL`; its second bitmap byte, `1`, is read as the first column. -/
theorem ninth_column_misread :
    Reached (boolShape 8) ∧ Reached (boolShape 9) ∧ Later (boolShape 8) (boolShape 9) ∧
      validateRowShape (boolShape 9).table (boolShape 9).columns (falseRow 8 1) = .ok () ∧
      extractPkValues (boolShape 9).table (falseRow 8 1) = .ok [.boolean true] ∧
      buildPutValue (boolShape 9).table (boolShape 9).columns (falseRow 8 1) =
        .ok [1, 10, 0, 0, 0, 0, 1, 0, 0, 0, 0, 0, 0, 0, 0] ∧
      decodeFullRow (boolShape 8).table (boolShape 8).columns [.boolean true]
          [1, 10, 0, 0, 0, 0, 1, 0, 0, 0, 0, 0, 0, 0, 0] =
        .ok (some (.boolean true) :: some (.boolean true) ::
          List.replicate 7 (some (.boolean false))) ∧
      ¬ RowsSurvive (boolShape 9) (boolShape 8) := by
  refine ⟨reached_boolShape (by decide), reached_boolShape (by decide),
    later_boolShape (n := 8) (d := 1) (by decide), validate_falseRow 8 1, rfl, ?_, ?_,
    not_survives_boolShape (n := 7) (d := 1) (by decide) (by decide)⟩
  · decide +kernel
  · decide +kernel

end RubixDb.Proof
