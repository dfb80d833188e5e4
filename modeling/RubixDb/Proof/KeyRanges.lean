import RubixDb.Proof.KeyCarry

/-!
# Which keys a range contains

The ranges of `src/relational/index_key.rs` are all scans between two bounds on leading
columns, so that one theorem about a scan says what each of them contains.

The ranges of the last index there can be are wrong: they end where the next table's first
index starts, and the next table's rows come before that.
-/

namespace RubixDb

open Proof

/-! ## Columns of keys -/

/-- The types of the columns each index sorts by; index `0` of a table is its primary key. -/
abbrev KeySchema := Nat → Nat → List RelationalType

def KeyColumns.length : KeyColumns → Nat
  | .primary values => values.length
  | .indexed values => values.length

def KeyColumns.take (n : Nat) : KeyColumns → KeyColumns
  | .primary values => .primary (values.take n)
  | .indexed values => .indexed (values.take n)

def KeyColumns.HasTypes (indexId : Nat) (types : List RelationalType) : KeyColumns → Prop
  | .primary values => indexId = 0 ∧ values.map RelationalValue.valueType = types
  | .indexed values => indexId ≠ 0 ∧ OfTypes values types

/-- Column by column, `NULL` first. -/
def cmpColumns : KeyColumns → KeyColumns → Ordering
  | .primary as, .primary bs => cmpTuple as bs
  | .indexed as, .indexed bs => List.compareLex cmpOption as bs
  | _, _ => .eq

/-- The columns a scan can be bounded by: some of the leading ones. -/
def KeySchema.Leads (schema : KeySchema) (tableId indexId : Nat) (columns : KeyColumns) : Prop :=
  columns.HasTypes indexId ((schema tableId indexId).take columns.length)

/-- The keys that tables and indexes of these columns have. -/
def KeySchema.Has (schema : KeySchema) : PhysicalKey → Prop
  | .catalog systemTableId _ => systemTableId ≤ u32Max
  | .row tableId pkValues =>
    tableId ≤ u32Max ∧ pkValues.map RelationalValue.valueType = schema tableId 0
  | .entry tableId indexId indexed pkValues =>
    tableId ≤ u32Max ∧ 0 < indexId ∧ indexId ≤ u32Max ∧ OfTypes indexed (schema tableId indexId) ∧
      pkValues.map RelationalValue.valueType = schema tableId 0

/-- The leading columns are at or above a lower bound. -/
def MeetsStart (columns : KeyColumns) : Bound KeyColumns → Prop
  | .unbounded => True
  | .included lead => cmpColumns (columns.take lead.length) lead ≠ .lt
  | .excluded lead => cmpColumns (columns.take lead.length) lead = .gt

def MeetsEnd (columns : KeyColumns) : Bound KeyColumns → Prop
  | .unbounded => True
  | .included lead => cmpColumns (columns.take lead.length) lead ≠ .gt
  | .excluded lead => cmpColumns (columns.take lead.length) lead = .lt

def BoundLeads (schema : KeySchema) (tableId indexId : Nat) : Bound KeyColumns → Prop
  | .unbounded => True
  | .included lead => schema.Leads tableId indexId lead
  | .excluded lead => schema.Leads tableId indexId lead

end RubixDb

namespace RubixDb.Proof

open Lib List

variable {schema : KeySchema} {key : PhysicalKey} {t i t' i' : Nat} {k : Bytes}
    {stop : Bound Bytes}

/-- A key is what all keys of its index start with, its columns, and for an entry the
primary key. -/
theorem bytes_of_slot (hkey : schema.Has key) (hslot : key.slot = some (t, i))
    (hk : key.bytes = .ok k) :
    key.columns.HasTypes i (schema t i) ∧ t ≤ u32Max ∧ i ≤ u32Max ∧
      ∃ columns suffix, key.columns.encode = .ok columns ∧
        k = indexPrefix t i ++ (columns ++ suffix) := by
  cases key with
  | catalog id rest => cases hslot
  | row t' pk =>
    cases hslot
    obtain ⟨enc, henc, hk⟩ := bind_eq_ok.mp hk
    refine ⟨⟨rfl, hkey.2⟩, hkey.1, Nat.zero_le _, enc, [], henc, ?_⟩
    rw [← Except.ok.inj hk, tableRowKey, append_nil]
  | entry t' i' indexed pk =>
    cases hslot
    obtain ⟨ht, hpos, hi, htypes, -⟩ := hkey
    obtain ⟨enc, henc, hk⟩ := bind_eq_ok.mp hk
    obtain ⟨encPk, -, hk⟩ := bind_eq_ok.mp hk
    rw [indexEntryKey] at hk
    split_ifs at hk
    refine ⟨⟨by omega, htypes⟩, ht, hi, enc, encPk, henc, ?_⟩
    rw [← Except.ok.inj hk, append_assoc]

/-- How the leading columns of a key compare with a bound is how the bytes do, and the key
does not end inside a carry of the bound. -/
theorem leading_columns {columns lead : KeyColumns} {types : List RelationalType}
    {enc bound suffix : Bytes} (hcols : columns.HasTypes i types)
    (hlead : lead.HasTypes i (types.take lead.length)) (henc : columns.encode = .ok enc)
    (hbound : lead.encode = .ok bound) :
    ∃ first rest, enc = first ++ rest ∧
      Separates (cmpColumns (columns.take lead.length) lead) first bound ∧
      CarryFree bound (enc ++ suffix) := by
  cases columns with
  | primary values =>
    cases lead with
    | indexed lead => exact absurd hcols.1 hlead.1
    | primary lead =>
      have ht : (values.take lead.length).map RelationalValue.valueType =
          lead.map RelationalValue.valueType := by
        rw [hlead.2, map_take, hcols.2]
        rfl
      rw [← take_append_drop lead.length values] at henc
      obtain ⟨first, rest, hfirst, -, rfl⟩ := encodeCompositeKey_append henc
      refine ⟨first, rest, rfl, separates_encodeCompositeKey ht hfirst hbound, ?_⟩
      rw [append_assoc]
      exact carryFree_of_length_le (length_le_of_carried_composite ht.symm hbound hfirst)
  | indexed values =>
    cases lead with
    | primary lead => exact absurd hlead.1 hcols.1
    | indexed lead =>
      have ht : OfTypes (values.take lead.length) (types.take lead.length) :=
        forall₂_take _ hcols.2
      rw [← take_append_drop lead.length values] at henc
      obtain ⟨first, rest, hfirst, -, rfl⟩ := encodeIndexedColumns_append henc
      refine ⟨first, rest, rfl,
        separates_encodeIndexedColumns (ht.sameTypes hlead.2) hfirst hbound, ?_⟩
      rw [append_assoc]
      exact carryFree_of_length_le
        (length_le_of_carried_indexed (OfTypes.sameTypes hlead.2 ht) hbound hfirst)

/-! ## Indexes and tables are apart -/

theorem separates_indexPrefix (ht : t ≤ u32Max) (hi : i ≤ u32Max) (ht' : t' ≤ u32Max)
    (hi' : i' ≤ u32Max) :
    Separates ((compare t t').then (compare i i')) (indexPrefix t i) (indexPrefix t' i') := by
  have hlt : ∀ n, n ≤ u32Max → n < 256 ^ 4 := by
    have : u32Max = 256 ^ 4 - 1 := by decide
    omega
  exact ((separates_beBytes_of_lt (hlt t ht) (hlt t' ht')).append
    (separates_beBytes_of_lt (hlt i hi) (hlt i' hi'))).cons _

theorem indexPrefix_lt_iff {u v : Bytes} (ht : t ≤ u32Max) (hi : i ≤ u32Max) (ht' : t' ≤ u32Max)
    (hi' : i' ≤ u32Max) (hne : (t, i) ≠ (t', i')) :
    indexPrefix t i ++ u < indexPrefix t' i' ++ v ↔ t < t' ∨ t = t' ∧ i < i' := by
  have hsep := separates_indexPrefix ht hi ht' hi'
  have ho : (compare t t').then (compare i i') ≠ .eq := by
    rw [Ne, Ordering.then_eq_eq, Nat.compare_eq_eq, Nat.compare_eq_eq]
    rintro ⟨rfl, rfl⟩
    exact hne rfl
  rw [lt_iff_of_separates hsep ho, Ordering.then_eq_lt, Nat.compare_eq_lt, Nat.compare_eq_eq,
    Nat.compare_eq_lt]

/-- A key between what starts an index and what ends it is of that index. -/
theorem slot_of_between (ht : t ≤ u32Max) (hi : i ≤ u32Max) (hkey : schema.Has key)
    (hk : key.bytes = .ok k) (hstart : indexPrefix t i ≤ k)
    (hend : (∃ y, k < indexPrefix t i ++ y) ∨ (i < u32Max ∧ k < indexPrefix t (i + 1)) ∨
      (i = u32Max ∧ t = u32Max)) : key.slot = some (t, i) := by
  cases hslot : key.slot with
  | none =>
    -- the catalog's keys come first
    cases key with
    | catalog id rest =>
      have hlt : k < indexPrefix t i := by
        rw [← Except.ok.inj hk, indexPrefix, cons_lt_cons_iff]
        exact .inl (by decide)
      exact absurd hstart (not_le.mpr hlt)
    | row t' pk => cases hslot
    | entry t' i' indexed pk => cases hslot
  | some slot =>
    obtain ⟨t', i'⟩ := slot
    obtain ⟨-, ht', hi', enc, suffix, -, rfl⟩ := bytes_of_slot hkey hslot hk
    by_contra hne
    have hne : (t', i') ≠ (t, i) := fun h => hne (by rw [h])
    have hge : ¬ (t' < t ∨ t' = t ∧ i' < i) := by
      rw [← indexPrefix_lt_iff ht' hi' ht hi hne (u := enc ++ suffix) (v := [])]
      exact not_lt.mpr hstart
    rcases hend with ⟨y, hy⟩ | ⟨himax, hy⟩ | ⟨rfl, rfl⟩
    · rw [indexPrefix_lt_iff ht' hi' ht hi hne] at hy
      exact hge hy
    · rw [← append_nil (indexPrefix t (i + 1))] at hy
      by_cases hnext : (t', i') = (t, i + 1)
      · obtain ⟨rfl, rfl⟩ := Prod.mk.inj hnext
        rw [append_lt_append_iff] at hy
        exact not_lt_nil _ hy
      · rw [indexPrefix_lt_iff ht' hi' ht himax hnext] at hy
        have : ¬ (t' = t ∧ i' = i) := fun h => hne (by rw [h.1, h.2])
        omega
    · have : ¬ (t' = u32Max ∧ i' = u32Max) := fun h => hne (by rw [h.1, h.2])
      omega

/-! ## Scans -/

def InBounds (bounds : PhysicalBounds) (k : Bytes) : Prop :=
  bounds.1.admitsStart k ∧ bounds.2.admitsEnd k

theorem indexPrefix_le_append (t i : Nat) (x : Bytes) : indexPrefix t i ≤ indexPrefix t i ++ x := by
  have h : indexPrefix t i ++ [] ≤ indexPrefix t i ++ x := by
    rw [append_le_append_iff]
    exact not_lt.mp (not_lt_nil x)
  rwa [append_nil] at h

theorem body_lt_next (ht : t ≤ u32Max) (hi : i < u32Max) (w : Bytes) :
    indexPrefix t i ++ w < indexPrefix t (i + 1) := by
  have h := (indexPrefix_lt_iff (u := w) (v := []) ht (Nat.le_of_lt hi) ht hi (by simp)).mpr
    (.inr ⟨rfl, Nat.lt_succ_self i⟩)
  rwa [append_nil] at h

/-- The end of the whole index, as far as it is right. -/
theorem admitsEnd_indexEntryRange (hmax : i < u32Max ∨ t = u32Max)
    (hi : i ≤ u32Max) : (indexEntryRange t i).2.admitsEnd k ↔
      (i < u32Max ∧ k < indexPrefix t (i + 1)) ∨ (i = u32Max ∧ t = u32Max) := by
  rw [indexEntryRange]
  by_cases himax : i < u32Max
  · rw [if_pos himax]
    constructor
    · exact fun h => .inl ⟨himax, h⟩
    · rintro (⟨-, h⟩ | ⟨rfl, -⟩)
      · exact h
      · exact absurd himax (lt_irrefl _)
  · obtain rfl := hmax.resolve_left himax
    rw [if_neg himax]
    exact ⟨fun _ => .inr ⟨by omega, rfl⟩, fun _ => trivial⟩

/-- Every scan starts in its index, unless it leaves out all of the very last one. -/
theorem indexPrefix_le_of_admitsStart {start : Bound Bytes} (ht : t ≤ u32Max)
    (hmax : i < u32Max ∨ ∀ bytes, start = .excluded bytes → increment bytes ≠ none)
    (h : (indexScanStart t i start).admitsStart k) : indexPrefix t i ≤ k := by
  cases start with
  | unbounded =>
    rw [indexScanStart, indexEntryRange] at h
    split_ifs at h <;> exact h
  | included bytes => exact le_trans (indexPrefix_le_append t i bytes) h
  | excluded bytes =>
    rw [indexScanStart, indexEntryPrefixRange] at h
    cases hinc : increment bytes with
    | some next =>
      rw [hinc] at h
      exact le_trans (indexPrefix_le_append t i next) h
    | none =>
      have himax := hmax.resolve_right fun hb => hb bytes rfl hinc
      rw [hinc, indexEntryRange, if_pos himax] at h
      exact (le_of_lt
        (lt_of_le_of_lt (indexPrefix_le_append t i []) (body_lt_next ht himax []))).trans h

/-- Every scan ends in its index. -/
theorem end_of_admitsEnd (hi : i ≤ u32Max) (hmax : i < u32Max ∨ t = u32Max)
    (h : (indexScanEnd t i stop).admitsEnd k) :
    (∃ y, k < indexPrefix t i ++ y) ∨ (i < u32Max ∧ k < indexPrefix t (i + 1)) ∨
      (i = u32Max ∧ t = u32Max) := by
  cases stop with
  | unbounded => exact .inr ((admitsEnd_indexEntryRange hmax hi).mp h)
  | excluded bytes => exact .inl ⟨bytes, h⟩
  | included bytes =>
    rw [indexScanEnd, indexEntryPrefixRange] at h
    cases hinc : increment bytes with
    | some next =>
      rw [hinc] at h
      exact .inl ⟨next, h⟩
    | none =>
      rw [hinc] at h
      exact .inr ((admitsEnd_indexEntryRange hmax hi).mp h)

section Bounded

variable {columns lead : KeyColumns} {types : List RelationalType}
  {enc bound suffix : Bytes} {b : Bound Bytes}

/-- A bound on leading columns that encodes is one on their bytes, of the same kind. -/
theorem of_encodeBound {kind : Bytes → Bound Bytes} (h : lead.encode.map kind = .ok b) :
    ∃ bound, lead.encode = .ok bound ∧ b = kind bound := by
  cases hb : lead.encode with
  | error e => rw [hb] at h; cases h
  | ok bound => rw [hb] at h; exact ⟨bound, rfl, (Except.ok.inj h).symm⟩

section

variable (hcols : columns.HasTypes i types) (hlead : lead.HasTypes i (types.take lead.length))
  (henc : columns.encode = .ok enc) (hbound : lead.encode = .ok bound)

include hcols hlead henc hbound

/-- The bytes behind the head of a key against those of a bound. -/
theorem body_lt_iff : enc ++ suffix < bound ↔ cmpColumns (columns.take lead.length) lead = .lt := by
  obtain ⟨first, rest, rfl, hsep, -⟩ := @leading_columns _ _ _ _ _ _ suffix hcols hlead henc hbound
  have h := hsep (rest ++ suffix) []
  rw [← append_assoc, append_nil] at h
  rw [← compare_eq_lt_iff, h]
  cases cmpColumns (columns.take lead.length) lead with
  | lt => simp [Ordering.then]
  | gt => simp [Ordering.then]
  | eq =>
    rw [Ordering.eq_then, compare_eq_lt_iff]
    simp

theorem bound_isPrefix_iff (suffix : Bytes) :
    bound <+: enc ++ suffix ↔ cmpColumns (columns.take lead.length) lead = .eq := by
  obtain ⟨first, rest, rfl, hsep, -⟩ := @leading_columns _ _ _ _ _ _ suffix hcols hlead henc hbound
  rw [append_assoc, hsep.swap.isPrefix_iff]
  cases cmpColumns (columns.take lead.length) lead <;> simp

theorem body_lt_increment_iff {next : Bytes} (hinc : increment bound = some next) :
    enc ++ suffix < next ↔ cmpColumns (columns.take lead.length) lead ≠ .gt := by
  obtain ⟨-, -, -, -, hfree⟩ := @leading_columns _ _ _ _ _ _ suffix hcols hlead henc hbound
  rw [lt_increment_iff hinc hfree, body_lt_iff hcols hlead henc hbound,
    bound_isPrefix_iff hcols hlead henc hbound]
  cases cmpColumns (columns.take lead.length) lead <;> simp

theorem cmpColumns_ne_gt_of_increment (hinc : increment bound = none) :
    cmpColumns (columns.take lead.length) lead ≠ .gt := by
  have h := lt_or_isPrefix_replicate bound.length (enc ++ [])
  rw [← increment_eq_none hinc, body_lt_iff hcols hlead henc hbound,
    bound_isPrefix_iff hcols hlead henc hbound] at h
  rcases h with h | h <;> rw [h] <;> decide

end

/-- A key of the index is in front of the end of the whole index. -/
theorem admitsEnd_of_slot (ht : t ≤ u32Max) (hi : i ≤ u32Max) (hmax : i < u32Max ∨ t = u32Max)
    (w : Bytes) : (indexEntryRange t i).2.admitsEnd (indexPrefix t i ++ w) := by
  rw [admitsEnd_indexEntryRange hmax hi]
  by_cases himax : i < u32Max
  · exact .inl ⟨himax, body_lt_next ht himax w⟩
  · exact .inr ⟨by omega, hmax.resolve_left himax⟩

theorem admitsStart_iff {start : Bound KeyColumns} {startBytes : Bound Bytes} (ht : t ≤ u32Max)
    (hmax : i < u32Max ∨ ∀ bytes, startBytes = .excluded bytes → increment bytes ≠ none)
    (hcols : columns.HasTypes i (schema t i)) (henc : columns.encode = .ok enc)
    (hstart : BoundLeads schema t i start) (hbytes : encodeBound start = .ok startBytes) :
    (indexScanStart t i startBytes).admitsStart (indexPrefix t i ++ (enc ++ suffix)) ↔
      MeetsStart columns start := by
  cases start with
  | unbounded =>
    cases hbytes
    have : (indexEntryRange t i).1 = .included (indexPrefix t i) := by
      rw [indexEntryRange]
      split_ifs <;> rfl
    simp only [indexScanStart, this, Bound.admitsStart, MeetsStart, iff_true]
    exact indexPrefix_le_append t i _
  | included lead =>
    obtain ⟨bound, hb, rfl⟩ := of_encodeBound hbytes
    simp only [indexScanStart, Bound.admitsStart, MeetsStart]
    rw [append_le_append_iff, ← not_lt, body_lt_iff hcols hstart henc hb]
  | excluded lead =>
    obtain ⟨bound, hb, rfl⟩ := of_encodeBound hbytes
    simp only [indexScanStart, indexEntryPrefixRange, MeetsStart]
    cases hinc : increment bound with
    | some next =>
      simp only [Bound.admitsStart]
      rw [append_le_append_iff, ← not_lt, body_lt_increment_iff hcols hstart henc hb hinc,
        not_not]
    | none =>
      -- nothing of the index is behind a bound of `FF`s
      have himax := hmax.resolve_right fun h => h bound rfl hinc
      simp only [indexEntryRange, if_pos himax, Bound.admitsStart]
      constructor
      · intro h
        exact absurd (body_lt_next ht himax _) (not_lt.mpr h)
      · intro h
        exact absurd h (cmpColumns_ne_gt_of_increment hcols hstart henc hb hinc)

theorem admitsEnd_iff {stop : Bound KeyColumns} {stopBytes : Bound Bytes} (ht : t ≤ u32Max)
    (hi : i ≤ u32Max) (hmax : i < u32Max ∨ t = u32Max) (hcols : columns.HasTypes i (schema t i))
    (henc : columns.encode = .ok enc) (hstop : BoundLeads schema t i stop)
    (hbytes : encodeBound stop = .ok stopBytes) :
    (indexScanEnd t i stopBytes).admitsEnd (indexPrefix t i ++ (enc ++ suffix)) ↔
      MeetsEnd columns stop := by
  cases stop with
  | unbounded =>
    cases hbytes
    simp only [indexScanEnd, MeetsEnd, iff_true]
    exact admitsEnd_of_slot ht hi hmax _
  | excluded lead =>
    obtain ⟨bound, hb, rfl⟩ := of_encodeBound hbytes
    simp only [indexScanEnd, Bound.admitsEnd, MeetsEnd]
    rw [append_lt_append_iff, body_lt_iff hcols hstop henc hb]
  | included lead =>
    obtain ⟨bound, hb, rfl⟩ := of_encodeBound hbytes
    simp only [indexScanEnd, indexEntryPrefixRange, MeetsEnd]
    cases hinc : increment bound with
    | some next =>
      simp only [Bound.admitsEnd]
      rw [append_lt_append_iff, body_lt_increment_iff hcols hstop henc hb hinc]
    | none =>
      exact iff_of_true (admitsEnd_of_slot ht hi hmax _)
        (cmpColumns_ne_gt_of_increment hcols hstop henc hb hinc)

end Bounded

/-- **A scan returns the keys of its index between its bounds**, if it is not one of the
scans of the last index that are wrong. -/
theorem inBounds_scan_iff {start stop : Bound KeyColumns} {startBytes stopBytes : Bound Bytes}
    (ht : t ≤ u32Max) (hi : i ≤ u32Max) (hmax : i < u32Max ∨ t = u32Max)
    (hstartMax : i < u32Max ∨ ∀ bytes, startBytes = .excluded bytes → increment bytes ≠ none)
    (hkey : schema.Has key) (hk : key.bytes = .ok k) (hstart : BoundLeads schema t i start)
    (hstop : BoundLeads schema t i stop) (hsb : encodeBound start = .ok startBytes)
    (heb : encodeBound stop = .ok stopBytes) :
    InBounds (indexScanRange t i startBytes stopBytes) k ↔
      key.slot = some (t, i) ∧ MeetsStart key.columns start ∧ MeetsEnd key.columns stop := by
  constructor
  · rintro ⟨hs, he⟩
    have hslot := slot_of_between ht hi hkey hk (indexPrefix_le_of_admitsStart ht hstartMax hs)
      (end_of_admitsEnd hi hmax he)
    obtain ⟨htypes, -, -, enc, suffix, henc, rfl⟩ := bytes_of_slot hkey hslot hk
    exact ⟨hslot, (admitsStart_iff ht hstartMax htypes henc hstart hsb).mp hs,
      (admitsEnd_iff ht hi hmax htypes henc hstop heb).mp he⟩
  · rintro ⟨hslot, hs, he⟩
    obtain ⟨htypes, -, -, enc, suffix, henc, rfl⟩ := bytes_of_slot hkey hslot hk
    exact ⟨(admitsStart_iff ht hstartMax htypes henc hstart hsb).mpr hs,
      (admitsEnd_iff ht hi hmax htypes henc hstop heb).mpr he⟩

theorem indexEntryRange_eq_scan (t i : Nat) :
    indexEntryRange t i = indexScanRange t i .unbounded .unbounded := rfl

theorem tableRowRange_eq_scan (t : Nat) :
    tableRowRange t = indexScanRange t 0 .unbounded .unbounded := by
  have h0 : 0 < u32Max := by decide
  rw [← indexEntryRange_eq_scan, indexEntryRange, if_pos h0, tableRowRange, tableRowKey,
    append_nil]

/-- The entries that start with `p` are those from `p` on and up to `p`. -/
theorem indexEntryPrefixRange_eq_scan (t i : Nat) (p : Bytes) :
    indexEntryPrefixRange t i p = indexScanRange t i (.included p) (.included p) := rfl

/-! ## The ranges are exact -/

/-- What each range is for: the rows of a table, the entries of an index, those whose
indexed columns begin with `lead`, those whose leading columns are between two bounds. -/
def RangesExact (schema : KeySchema) (t i : Nat) (lead : KeyColumns)
    (start stop : Bound KeyColumns) : Prop :=
  ∀ key k, schema.Has key → key.bytes = .ok k →
    (InBounds (tableRowRange t) k ↔ key.slot = some (t, 0)) ∧
    (InBounds (indexEntryRange t i) k ↔ key.slot = some (t, i)) ∧
    (∀ p, lead.encode = .ok p → (InBounds (indexEntryPrefixRange t i p) k ↔
      key.slot = some (t, i) ∧ ∃ columns, key.columns.encode = .ok columns ∧ p <+: columns)) ∧
    ∀ bounds, scanBounds t i start stop = .ok bounds → (InBounds bounds k ↔
      key.slot = some (t, i) ∧ MeetsStart key.columns start ∧ MeetsEnd key.columns stop)

/-- A value of each type. -/
def sampleValue : RelationalType → RelationalValue
  | .boolean => .boolean false
  | .integer => .integer 0
  | .bigint => .bigint 0
  | .real => .real 0
  | .double => .double 0
  | .decimal scale => .decimal 0 scale
  | .text => .text ""
  | .blob => .blob []
  | .date => .date 0
  | .time => .time 0
  | .timestamp => .timestamp 0

theorem exists_key_of_types (types : List RelationalType) :
    ∃ values x, values.map RelationalValue.valueType = types ∧
      encodeCompositeKey values = .ok x := by
  induction types with
  | nil => exact ⟨[], [], rfl, rfl⟩
  | cons ty types ih =>
    obtain ⟨values, x, ht, hx⟩ := ih
    obtain ⟨y, hy⟩ : ∃ y, encodeKeyValue (sampleValue ty) = .ok y := by
      cases ty <;> exact ⟨_, rfl⟩
    refine ⟨sampleValue ty :: values, y ++ x, ?_, ?_⟩
    · rw [map_cons, ht]
      cases ty <;> rfl
    · rw [encodeCompositeKey, hy, ok_bind, hx, ok_bind]

/-- The last index of a table ends behind the rows of the next table. -/
theorem row_inBounds_of_last (ht : t < u32Max) (w : Bytes) :
    InBounds (indexEntryRange t u32Max) (tableRowKey (t + 1) w) := by
  have h1 : 1 ≤ u32Max := by decide
  rw [indexEntryRange, if_pos ht, tableRowKey]
  constructor
  · have h :=
      (indexPrefix_lt_iff (u := []) (v := w) (Nat.le_of_lt ht) (le_refl _) ht (Nat.zero_le _)
      (by simp)).mpr (.inl (Nat.lt_succ_self t))
    exact le_of_lt h
  · have h := (indexPrefix_lt_iff (u := w) (v := []) ht (Nat.zero_le _) ht h1 (by simp)).mpr
      (.inr ⟨rfl, Nat.zero_lt_one⟩)
    exact h

/-- A scan that leaves out all of the very last index starts at the first key there is. -/
theorem catalog_inBounds_of_last :
    InBounds (indexScanRange u32Max u32Max (.excluded []) stop) [0, 0, 0, 0, 0] := by
  have hcat : ∀ x, [0, 0, 0, 0, 0] < indexPrefix u32Max u32Max ++ x := by
    intro x
    rw [indexPrefix, cons_append, cons_lt_cons_iff]
    exact .inl (by decide)
  have hend : (indexEntryRange u32Max u32Max).2 = .unbounded := by
    rw [indexEntryRange, if_neg (lt_irrefl _), if_neg (lt_irrefl _)]
  constructor
  · have hinc : increment [] = none := rfl
    simp only [indexScanRange, indexScanStart, indexEntryPrefixRange, hinc, hend, Bound.admitsStart]
  · cases stop with
    | unbounded => simp only [indexScanRange, indexScanEnd, hend, Bound.admitsEnd]
    | excluded bytes => exact hcat bytes
    | included bytes =>
      simp only [indexScanRange, indexScanEnd, indexEntryPrefixRange]
      cases increment bytes with
      | some next => exact hcat next
      | none => simp only [hend, Bound.admitsEnd]

/-- **The ranges are exact up to the last index.** For every table and index, and bounds on
leading columns: each range contains exactly the keys it is for, if and only if the index
is not the last one there can be, or is that of the last table and the scan does not leave
out all of it. -/
theorem key_ranges_exact_iff (schema : KeySchema) (t i : Nat) (lead : KeyColumns)
    (start stop : Bound KeyColumns) (bounds : PhysicalBounds) (ht : t ≤ u32Max) (hi : i ≤ u32Max)
    (hlead : schema.Leads t i lead) (hstart : BoundLeads schema t i start)
    (hstop : BoundLeads schema t i stop) (hbounds : scanBounds t i start stop = .ok bounds) :
    RangesExact schema t i lead start stop ↔
      i < u32Max ∨ t = u32Max ∧ ∀ columns, start = .excluded columns → columns.length ≠ 0 := by
  obtain ⟨startBytes, hsb, hrest⟩ := bind_eq_ok.mp hbounds
  obtain ⟨stopBytes, heb, hrest⟩ := bind_eq_ok.mp hrest
  cases hrest
  constructor
  · intro h
    by_contra hne
    rw [not_or, not_and] at hne
    obtain ⟨hlast, hne⟩ := hne
    obtain rfl : i = u32Max := by omega
    by_cases htmax : t = u32Max
    · -- the scan from behind an empty bound starts anywhere
      subst htmax
      obtain ⟨columns, rfl, hlen⟩ : ∃ columns, start = .excluded columns ∧ columns.length = 0 := by
        by_contra hno
        exact hne rfl fun columns hs hlen => hno ⟨columns, hs, hlen⟩
      have henc : columns.encode = .ok [] := by
        cases columns with
        | primary values => exact absurd hstart.1 (by decide)
        | indexed values =>
          obtain rfl : values = [] := length_eq_zero_iff.mp hlen
          rfl
      rw [encodeBound, henc] at hsb
      cases hsb
      have hcat := ((h (.catalog 0 []) [0, 0, 0, 0, 0] (Nat.zero_le _) rfl).2.2.2 _ hbounds).mp
        catalog_inBounds_of_last
      cases hcat.1
    · -- the whole index contains the rows of the next table
      have htlt : t < u32Max := by omega
      obtain ⟨values, x, hvalues, hx⟩ := exists_key_of_types (schema (t + 1) 0)
      have hbytes : (PhysicalKey.row (t + 1) values).bytes = .ok (tableRowKey (t + 1) x) := by
        rw [PhysicalKey.bytes, hx, ok_bind]
      have hrow := ((h (.row (t + 1) values) _ ⟨htlt, hvalues⟩ hbytes).2.1).mp
        (row_inBounds_of_last htlt x)
      have := (Prod.mk.inj (Option.some.inj hrow)).1
      omega
  · intro hcond key k hkey hk
    have hmax : i < u32Max ∨ t = u32Max := hcond.imp_right And.left
    -- an empty bound is the only one without a successor here, as every column has a tag
    have hstartMax : i < u32Max ∨ ∀ bytes, startBytes = .excluded bytes →
        increment bytes ≠ none := by
      rcases hcond with hcond | ⟨-, hcond⟩
      · exact .inl hcond
      · by_cases himax : i < u32Max
        · exact .inl himax
        · refine .inr fun bytes hb hinc => ?_
          cases start with
          | unbounded => rw [← Except.ok.inj hsb] at hb; cases hb
          | included columns =>
            obtain ⟨_, -, rfl⟩ := of_encodeBound hsb
            cases hb
          | excluded columns =>
            obtain ⟨_, henc, rfl⟩ := of_encodeBound hsb
            cases hb
            cases columns with
            | primary values =>
              have : i = 0 := hstart.1
              have : 0 < u32Max := by decide
              omega
            | indexed values =>
              have hnil := eq_nil_of_all_ff_indexed henc (increment_eq_none hinc)
              exact hcond _ rfl (by rw [hnil]; rfl)
    have h0 : 0 < u32Max := by decide
    refine ⟨?_, ?_, ?_, ?_⟩
    · rw [tableRowRange_eq_scan, @inBounds_scan_iff schema key t 0 k .unbounded .unbounded _ _ ht
        (Nat.zero_le _) (.inl h0) (.inl h0) hkey hk trivial trivial rfl rfl]
      simp [MeetsStart, MeetsEnd]
    · rw [indexEntryRange_eq_scan,
        @inBounds_scan_iff schema key t i k .unbounded .unbounded _ _ ht hi
        hmax (.inr (by rintro _ ⟨⟩)) hkey hk trivial trivial rfl rfl]
      simp [MeetsStart, MeetsEnd]
    · intro p hp
      have hpb : encodeBound (.included lead) = .ok (.included p) := by rw [encodeBound, hp]; rfl
      rw [indexEntryPrefixRange_eq_scan, @inBounds_scan_iff schema key t i k (.included lead)
        (.included lead) _ _ ht hi hmax (.inr (by rintro _ ⟨⟩)) hkey hk hlead hlead hpb hpb]
      refine and_congr_right fun hslot => ?_
      obtain ⟨htypes, -, -, enc, -, henc, -⟩ := bytes_of_slot hkey hslot hk
      have hbegins := bound_isPrefix_iff htypes hlead henc hp []
      rw [append_nil] at hbegins
      simp only [MeetsStart, MeetsEnd]
      constructor
      · rintro ⟨hlt, hgt⟩
        refine ⟨enc, henc, hbegins.mpr ?_⟩
        cases hcmp : cmpColumns (key.columns.take lead.length) lead with
        | lt => exact absurd hcmp hlt
        | eq => rfl
        | gt => exact absurd hcmp hgt
      · rintro ⟨columns, hcolumns, hpre⟩
        obtain rfl := Except.ok.inj (henc.symm.trans hcolumns)
        rw [hbegins.mp hpre]
        exact ⟨by decide, by decide⟩
    · intro b hb
      obtain rfl := Except.ok.inj (hbounds.symm.trans hb)
      exact inBounds_scan_iff ht hi hmax hstartMax hkey hk hstart hstop hsb heb

/-- The range of all entries of the last index of table 1 contains a row of table 2. -/
theorem last_index_range_contains_row :
    ∃ key k, KeySchema.Has (fun _ _ => [.integer]) key ∧ key.bytes = .ok k ∧
      InBounds (indexEntryRange 1 u32Max) k ∧ key.slot = some (2, 0) :=
  ⟨.row 2 [.integer 5], _, ⟨by decide, rfl⟩, rfl, row_inBounds_of_last (by decide) _, rfl⟩

/-- Index 3 of table 1 over an integer column, scanned from `NULL` (left out) up to 7. -/
theorem key_ranges_exact_index_three :
    RangesExact (fun _ _ => [.integer]) 1 3 (.indexed [some (.integer 7)])
      (.excluded (.indexed [none])) (.included (.indexed [some (.integer 7)])) := by
  have hcol : ∀ v : Option RelationalValue, (∀ x ∈ v, x.valueType = .integer) →
      KeySchema.Leads (fun _ _ => [.integer]) 1 3 (.indexed [v]) := by
    intro v hv
    exact ⟨by decide, .cons hv .nil⟩
  have hseven := hcol (some (.integer 7)) (by simp [RelationalValue.valueType])
  have hnull := hcol none (by simp)
  exact (key_ranges_exact_iff _ 1 3 (.indexed [some (.integer 7)]) (.excluded (.indexed [none]))
    (.included (.indexed [some (.integer 7)])) _ (by decide) (by decide) hseven hnull
      hseven rfl).mpr
    (.inl (by decide))

end RubixDb.Proof
