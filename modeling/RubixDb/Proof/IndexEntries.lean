import RubixDb.Proof.KeyCodec
import RubixDb.Proof.SchemaGrowth
import RubixDb.Relational.DirectWrites

/-!
# Rows and their index entries

The entry of a row in an index tells the row's key, as long as the rows have the types of
the columns: the encoded indexed columns end where they end, whatever follows. So a write
of one row does not touch the entry of another, and the operations that replace a row say
for each entry key whether it is there afterwards (`lastOp_indexMaintenanceOps`).
-/

namespace RubixDb

open Lib

/-- The current row at a key. -/
def rowNow (es : RelStore) (tableId : Nat) (encodedPk : Bytes) : Option Row :=
  (readNow es (.row tableId encodedPk)).bind StoreValue.row?

/-- The key of a row's entry, if it has one. -/
def entryOf (tableId : Nat) (index : IndexRow) (row : Option Row) (encodedPk : Bytes) :
    Option StoreKey :=
  match optionalEntryKey tableId index row encodedPk with
  | .ok key => key
  | .error _ => none

/-- Every value has the type of its column. -/
def RowTyped (shape : TableShape) (row : Row) : Prop :=
  ∀ o v, columnValue row o = some v →
    ∃ c ∈ shape.columns, c.ordinal = o ∧ relationalTypeFromColumn c = .ok v.valueType

end RubixDb

namespace RubixDb.Proof

open Lib

/-! ## Types -/

variable {shape : TableShape} {t id : Nat} {i : IndexRow} {row old new : Option Row}
    {pk body : Bytes} {k : StoreKey} {is : List IndexRow} {ops : RelOps}

theorem rowTyped_of_valid {row : Row}
    (hord : shape.columns.map (·.ordinal) = List.range shape.columns.length)
    (h : validateRowShape shape.table shape.columns row = .ok ()) : RowTyped shape row := by
  obtain ⟨hlen, hfields⟩ := validateRowShape_ok h
  intro o v hv
  have ho : o < shape.columns.length := by
    by_contra hge
    rw [columnValue, List.getElem?_eq_none (by omega)] at hv
    cases hv
  have hmem : o ∈ shape.columns.map (·.ordinal) := by
    rw [hord]
    exact List.mem_range.mpr ho
  obtain ⟨c, hc, hco⟩ := List.mem_map.mp hmem
  refine ⟨c, hc, hco, ?_⟩
  obtain ⟨hget, hfield⟩ := hfields c hc
  rw [columnValue, ← hco, hget, Option.join_some] at hv
  rw [hv] at hfield
  exact validateField_type hfield

theorem sameTypes_of_typed (hord : shape.columns.map (·.ordinal) = List.range shape.columns.length)
    {r s : Row} (hr : RowTyped shape r) (hs : RowTyped shape s) (ordinals : List Nat) :
    SameTypes (ordinals.map (columnValue r)) (ordinals.map (columnValue s)) := by
  have hnodup : (shape.columns.map (·.ordinal)).Nodup := by
    rw [hord]
    exact List.nodup_range
  induction ordinals with
  | nil => exact .nil
  | cons o ordinals ih =>
    refine .cons (fun x hx y hy => ?_) ih
    obtain ⟨c, hc, hco, hcx⟩ := hr o x hx
    obtain ⟨d, hd, hdo, hdy⟩ := hs o y hy
    obtain rfl := List.inj_on_of_nodup_map hnodup hc hd (hco.trans hdo.symm)
    rw [hcx] at hdy
    exact Except.ok.inj hdy

/-! ## Entries -/

theorem entryOf_eq_some (h : entryOf t i row pk = some k) :
    ∃ r x, row = some r ∧ encodeIndexedColumns (indexedValues i r) = .ok x ∧
      k = .entry t i.indexId (x ++ pk) := by
  cases row with
  | none => cases h
  | some r =>
    rw [entryOf, optionalEntryKey, indexedEntryKey] at h
    cases hfind : i.columnOrdinals.find? (r.length ≤ ·) with
    | some o => rw [hfind] at h; cases h
    | none =>
      rw [hfind] at h
      cases henc : encodeIndexedColumns (indexedValues i r) with
      | error e => rw [henc] at h; cases h
      | ok x =>
        rw [henc] at h
        refine ⟨r, x, rfl, henc, ?_⟩
        simp only [] at h
        cases hkey : indexEntryKey t i.indexId x pk with
        | error e => rw [hkey] at h; cases h
        | ok y => rw [hkey] at h; exact (Option.some.inj h).symm

/-- **An entry tells the key of its row.** -/
theorem pk_eq_of_entryOf (hord : shape.columns.map (·.ordinal) = List.range shape.columns.length)
    {row' : Option Row} {pk' : Bytes} (hrow : ∀ r, row = some r → RowTyped shape r)
    (hrow' : ∀ r, row' = some r → RowTyped shape r) (h : entryOf t i row pk = some k)
    (h' : entryOf t i row' pk' = some k) : pk = pk' := by
  obtain ⟨r, x, hr, hx, rfl⟩ := entryOf_eq_some h
  obtain ⟨s, y, hs, hy, heq⟩ := entryOf_eq_some h'
  have hsep := separates_encodeIndexedColumns
    (sameTypes_of_typed hord (hrow r hr) (hrow' s hs) i.columnOrdinals) hx hy
  exact (hsep.eq_of_append (StoreKey.entry.inj heq).2.2).2

/-! ## Index maintenance -/

theorem entryOf_of_ok {k : Option StoreKey}
    (h : optionalEntryKey t i row pk = .ok k) : entryOf t i row pk = k := by
  rw [entryOf, h]

/-- The operations on one index. -/
def indexOps (t : Nat) (old new : Option Row) (pk : Bytes) (i : IndexRow) : RelOps :=
  (if entryOf t i old pk = entryOf t i new pk then []
    else (entryOf t i old pk).toList.map fun k => (k, none)) ++
  (entryOf t i new pk).toList.map fun k => (k, some .marker)

theorem indexMaintenanceOps_eq :
    ∀ {ops : RelOps}, indexMaintenanceOps t old new pk is = .ok ops →
      ops = is.flatMap (indexOps t old new pk) := by
  induction is with
  | nil =>
    intro ops h
    exact (Except.ok.inj h).symm
  | cons i is ih =>
    intro ops h
    obtain ⟨oldKey, hold, h⟩ := bind_eq_ok.mp h
    obtain ⟨newKey, hnew, h⟩ := bind_eq_ok.mp h
    obtain ⟨rest, hrest, h⟩ := bind_eq_ok.mp h
    rw [List.flatMap_cons, indexOps, entryOf_of_ok hold, entryOf_of_ok hnew, ← ih hrest]
    exact (Except.ok.inj h).symm

/-- **What replacing a row does to an entry key**: the new row's entry is put, the old row's
is removed unless it is the same, and every other stays as it is. -/
theorem lastOp_indexOps (t : Nat) (old new : Option Row) (pk : Bytes) (i : IndexRow)
    (k : StoreKey) :
    lastOp (indexOps t old new pk i) k =
      if entryOf t i new pk = some k then some (some .marker)
      else if entryOf t i old pk = some k then some none
      else none := by
  rw [indexOps]
  cases hnew : entryOf t i new pk with
  | none =>
    cases hold : entryOf t i old pk with
    | none => simp [lastOp]
    | some x => by_cases hx : x = k <;> simp [lastOp, hx]
  | some y =>
    by_cases hy : y = k
    · simp [lastOp, hy]
    · cases hold : entryOf t i old pk with
      | none => simp [lastOp, hy]
      | some x =>
        by_cases hxy : x = y
        · simp [lastOp, hy, hxy]
        · by_cases hx : x = k
          · have hky : k ≠ y := hx ▸ hxy
            simp [lastOp, hy, hx, hky]
          · simp [lastOp, hy, hx, hxy]

theorem entryOf_indexId (h : entryOf t i row pk = some (.entry t id body)) : i.indexId = id := by
  obtain ⟨r, x, -, -, heq⟩ := entryOf_eq_some h
  exact (StoreKey.entry.inj heq).2.1.symm

/-- An index is only touched by its own operations. -/
theorem lastOp_indexOps_of_ne
    (h : i.indexId ≠ id) : lastOp (indexOps t old new pk i) (.entry t id body) = none := by
  rw [lastOp_indexOps, if_neg fun he => h (entryOf_indexId he),
    if_neg fun he => h (entryOf_indexId he)]

theorem lastOp_indexMaintenanceOps (hi : i ∈ is) (hids : (is.map (·.indexId)).Nodup)
    (h : indexMaintenanceOps t old new pk is = .ok ops) :
    lastOp ops (.entry t i.indexId body) =
      lastOp (indexOps t old new pk i) (.entry t i.indexId body) := by
  rw [indexMaintenanceOps_eq h]
  have hother : ∀ j ∈ is, j ≠ i →
      lastOp (indexOps t old new pk j) (.entry t i.indexId body) = none := by
    intro j hj hne
    exact lastOp_indexOps_of_ne fun hid => hne (List.inj_on_of_nodup_map hids hj hi hid)
  cases hop : lastOp (indexOps t old new pk i) (.entry t i.indexId body) with
  | none =>
    refine lastOp_flatMap_eq_none_iff.mpr fun j hj => ?_
    by_cases hji : j = i
    · rw [hji, hop]
    · exact hother j hj hji
  | some v =>
    obtain ⟨pre, post, rfl⟩ := List.append_of_mem hi
    refine lastOp_flatMap_of_last hop fun j hj => hother j (by simp [hj]) ?_
    -- the index stands in the list once
    rintro rfl
    have hnodup := List.Nodup.of_map _ hids
    exact (List.nodup_cons.mp (List.nodup_append.mp hnodup).2.1).1 hj

/-- The keys of a table. -/
def onTable (t : Nat) : StoreKey → Prop
  | .row t' _ => t' = t
  | .entry t' _ _ => t' = t
  | _ => False

theorem onTable_of_indexMaintenanceOps (h : indexMaintenanceOps t old new pk is = .ok ops)
    (hk : Writes ops k) : ∃ id body, k = .entry t id body := by
  rw [indexMaintenanceOps_eq h] at hk
  have hsome : ∃ i ∈ is, lastOp (indexOps t old new pk i) k ≠ none := by
    by_contra hall
    simp only [not_exists, not_and, not_not] at hall
    exact lastOp_eq_none_iff.mp (lastOp_flatMap_eq_none_iff.mpr hall) hk
  obtain ⟨i, -, hop⟩ := hsome
  rw [lastOp_indexOps] at hop
  have hentry : ∃ row, entryOf t i row pk = some k := by
    by_contra hnone
    simp only [not_exists] at hnone
    rw [if_neg (hnone new), if_neg (hnone old)] at hop
    exact hop rfl
  obtain ⟨row, hrow⟩ := hentry
  obtain ⟨r, x, -, -, rfl⟩ := entryOf_eq_some hrow
  exact ⟨i.indexId, x ++ pk, rfl⟩

end RubixDb.Proof
