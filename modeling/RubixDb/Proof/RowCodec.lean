import RubixDb.Lib.Run
import RubixDb.Relational.TableStore

/-!
# Stored rows read back

The envelope of `src/catalog/encoding.rs` over the values of `src/relational/value.rs`:
decoding the first `n` fields of an encoded row gives those fields, provided the null
bitmap of `n` fields is as wide as the row's own. The proviso is what the format needs:
the bitmap's width is not in the bytes.
-/

namespace RubixDb.Proof

open Lib List

/-! ## Readers -/

variable {n i schemaVersion : Nat} {T : Type} {fields : Row} {types : List RelationalType}

section Readers

variable {pre post : Bytes}

/-- What stands behind `pre` is read whole. -/
theorem readBytes_append {x : Bytes} (h : (pre ++ (x ++ post)).length ≤ usizeMax) :
    readBytes (pre ++ (x ++ post)) pre.length x.length = .ok (x, pre.length + x.length) := by
  have hlen : (pre ++ (x ++ post)).length = pre.length + (x.length + post.length) := by simp
  have hread : ((pre ++ (x ++ post)).drop pre.length).take x.length = x := by
    rw [drop_left, take_left]
  rw [readBytes, if_neg (by omega), if_neg (by omega), hread]

theorem readLe_append {width n : Nat} (hn : n < 256 ^ width)
    (h : (pre ++ (leBytes width n ++ post)).length ≤ usizeMax) :
    readLe width (pre ++ (leBytes width n ++ post)) pre.length = .ok (n, pre.length + width) := by
  have hread := readBytes_append h
  rw [length_leBytes] at hread
  rw [readLe, hread]
  show Except.ok _ = _
  rw [leNat_leBytes hn]

theorem readBits_append {bits width : Nat} (hw : 2 ^ bits ≤ 256 ^ width) (v : BitVec bits)
    (h : (pre ++ (leBytes width v.toNat ++ post)).length ≤ usizeMax) :
    readBits bits width (pre ++ (leBytes width v.toNat ++ post)) pre.length =
      .ok (v, pre.length + width) := by
  rw [readBits, readLe_append (Nat.lt_of_lt_of_le v.isLt hw) h]
  show Except.ok _ = _
  rw [BitVec.ofNat_toNat, BitVec.setWidth_eq]

theorem readSized_append {raw : Bytes} (hraw : raw.length < 2 ^ 32)
    (h : (pre ++ (encodeSized raw ++ post)).length ≤ usizeMax) :
    readSized (pre ++ (encodeSized raw ++ post)) pre.length =
      .ok (raw, pre.length + (encodeSized raw).length) := by
  rw [encodeSized, append_assoc] at h ⊢
  rw [readSized, readU32, readLe_append (by simpa using hraw) h]
  -- the bytes start behind the length field
  have hpos : pre.length + 4 = (pre ++ leBytes 4 raw.length).length := by simp
  have hread := @readBytes_append (pre ++ leBytes 4 raw.length) post raw
    (by simpa using h)
  show readBytes _ (pre.length + 4) raw.length = _
  rw [← append_assoc, hpos, hread]
  simp [Nat.add_assoc]

theorem fromUtf8_utf8Bytes (s : String) : fromUtf8 (utf8Bytes s) = some s := by
  have hbytes : (utf8Bytes s).toByteArray = s.toByteArray := by
    apply ByteArray.ext
    rw [data_toByteArray]
    rfl
  rw [fromUtf8, hbytes, String.fromUTF8?, dif_pos s.isValidUTF8]
  rfl

theorem leBytes_one (hn : n < 256) : leBytes 1 n = [UInt8.ofNat n] := by
  rw [leBytes, Nat.mod_eq_of_lt hn]
  rfl

/-- **A value reads back** as a field of its type. -/
theorem decodeValue_encodeValue (v : RelationalValue) (hsize : (encodeValue v).length < 2 ^ 32)
    (h : (pre ++ (encodeValue v ++ post)).length ≤ usizeMax) :
    decodeValue v.valueType (pre ++ (encodeValue v ++ post)) pre.length =
      .ok (v, pre.length + (encodeValue v).length) := by
  cases v with
  | boolean b =>
    have henc : encodeValue (.boolean b) = leBytes 1 (if b then 1 else 0) := by
      cases b <;> rfl
    rw [henc] at h ⊢
    rw [RelationalValue.valueType, decodeValue, readU8, readLe_append (by cases b <;> decide) h]
    cases b <;> rfl
  | integer v | real v | date v =>
    rw [encodeValue] at h ⊢
    rw [RelationalValue.valueType, decodeValue, readI32, readBits_append (by norm_num) v h]
    rfl
  | bigint v | double v | time v | timestamp v =>
    rw [encodeValue] at h ⊢
    rw [RelationalValue.valueType, decodeValue, readI64, readBits_append (by norm_num) v h]
    rfl
  | decimal v scale =>
    rw [encodeValue, append_assoc] at h ⊢
    rw [RelationalValue.valueType, decodeValue, readI128, readBits_append (by norm_num) v h,
      ok_bind]
    -- the scale byte stands behind the sixteen bytes of the number
    have hpos : pre.length + 16 = (pre ++ leBytes 16 v.toNat).length := by simp
    have hscale : [scale] = leBytes 1 scale.toNat := by
      rw [leBytes_one scale.toNat_lt, UInt8.ofNat_toNat]
    have hread := @readLe_append (pre ++ leBytes 16 v.toNat) post 1 scale.toNat
      (by simpa using scale.toNat_lt)
      (by rw [← hscale, append_assoc]; exact h)
    dsimp only
    rw [← append_assoc, hscale, hpos, readU8, hread]
    simp [Nat.add_assoc]
  | text s =>
    rw [encodeValue] at h hsize ⊢
    have hraw : (utf8Bytes s).length < 2 ^ 32 := by
      rw [encodeSized, length_append] at hsize
      omega
    rw [RelationalValue.valueType, decodeValue, readSized_append hraw h, ok_bind]
    simp only [fromUtf8_utf8Bytes]
  | blob raw =>
    rw [encodeValue] at h hsize ⊢
    have hraw : raw.length < 2 ^ 32 := by
      rw [encodeSized, length_append] at hsize
      omega
    rw [RelationalValue.valueType, decodeValue, readSized_append hraw h]
    rfl

end Readers

/-! ## The null bitmap -/

section Bitmap

@[simp] theorem length_markNulls (bitmap : Bytes) (fields : List (Option T)) (i : Nat) :
    (markNulls bitmap fields i).length = bitmap.length := by
  induction fields generalizing bitmap i with
  | nil => rfl
  | cons field fields ih => cases field <;> simp [markNulls, ih]

@[simp] theorem length_nullBitmap (fields : List (Option T)) :
    (nullBitmap fields).length = nullBitmapLen fields.length := by
  simp [nullBitmap]

/-- The bits set are those of the `NULL` fields. -/
theorem testBit_markNulls {bitmap : Bytes} {fields : List (Option T)}
    (hlen : i + fields.length ≤ 8 * bitmap.length) (j : Nat) :
    testBit (markNulls bitmap fields i) j =
      (testBit bitmap j || (decide (i ≤ j) && (fields[j - i]?).any (·.isNone))) := by
  induction fields generalizing bitmap i with
  | nil => simp [markNulls]
  | cons field fields ih =>
    rw [length_cons] at hlen
    -- field `i` is the head, the fields behind it start at `i + 1`
    have htail : (decide (i ≤ j) && ((field :: fields)[j - i]?).any (·.isNone)) =
        ((decide (i = j) && field.isNone) ||
          (decide (i + 1 ≤ j) && (fields[j - (i + 1)]?).any (·.isNone))) := by
      rcases Nat.lt_trichotomy i j with h | h | h
      · have hsub : j - i = (j - (i + 1)) + 1 := by omega
        rw [hsub]
        simp [h, Nat.le_of_lt h, Nat.ne_of_lt h]
      · subst h; simp
      · have h1 : ¬ i ≤ j := by omega
        have h2 : ¬ i + 1 ≤ j := by omega
        have h3 : i ≠ j := by omega
        simp [h1, h2, h3]
    rw [htail]
    cases field with
    | none =>
      rw [markNulls, ih (by rw [length_setBit]; omega), testBit_setBit (by omega)]
      simp [Bool.or_assoc]
    | some v =>
      rw [markNulls, ih (by omega)]
      simp

theorem le_nullBitmapLen (n : Nat) : n ≤ 8 * nullBitmapLen n := by
  rw [nullBitmapLen]
  omega

theorem testBit_nullBitmap (fields : List (Option T)) (j : Nat) :
    testBit (nullBitmap fields) j = (fields[j]?).any (·.isNone) := by
  rw [nullBitmap, testBit_markNulls (by simpa using le_nullBitmapLen fields.length),
    testBit_replicate_zero]
  simp

end Bitmap

/-! ## Rows -/

@[simp] theorem encodeValues_cons_none (encode : T → Bytes) (fields : List (Option T)) :
    encodeValues encode (none :: fields) = encodeValues encode fields := rfl

@[simp] theorem encodeValues_cons_some (encode : T → Bytes) (v : T) (fields : List (Option T)) :
    encodeValues encode (some v :: fields) = encode v ++ encodeValues encode fields := rfl

theorem encodeValues_append (encode : T → Bytes) (fields fields' : List (Option T)) :
    encodeValues encode (fields ++ fields') =
      encodeValues encode fields ++ encodeValues encode fields' := by
  simp [encodeValues]

/-- `types` are the types of the first of `fields`. -/
def Typed (types : List RelationalType) (fields : Row) : Prop :=
  ∀ (i : Nat) (t : RelationalType) (v : RelationalValue),
    types[i]? = some t → fields[i]? = some (some v) → t = v.valueType

/-- Fields behind `pre` read back, given their bits. The induction is on the fields, `pre`
growing by each value that is passed. -/
theorem decodeFields_encodeValues {types : List RelationalType} {bitmap : Bytes} {all : Row}
    (hbits : ∀ i, i < types.length → testBit bitmap i = (all[i]?).any (·.isNone))
    (htyped : Typed types all) {post : Bytes} {fields : Row} {i : Nat} {pre : Bytes}
    (hall : ∀ k, k < fields.length → all[i + k]? = fields[k]?)
    (hcount : i + fields.length ≤ types.length)
    (hsize : (encodeValues encodeValue fields).length < 2 ^ 32)
    (husize : (pre ++ (encodeValues encodeValue fields ++ post)).length ≤ usizeMax) :
    decodeFields (fun i pos => decodeValue (types.getD i .boolean)
      (pre ++ (encodeValues encodeValue fields ++ post)) pos) bitmap fields.length i pre.length =
        .ok fields := by
  induction fields generalizing i pre with
  | nil => rfl
  | cons field fields ih =>
    rw [length_cons] at hcount
    have hhead : all[i]? = some field := by simpa using hall 0 (by simp)
    have hrest : ∀ k, k < fields.length → all[i + 1 + k]? = fields[k]? := by
      intro k hk
      have := hall (k + 1) (by simpa using hk)
      rwa [← Nat.add_assoc, Nat.add_right_comm] at this
    have hbit := hbits i (by omega)
    rw [hhead] at hbit
    rw [length_cons, decodeFields, hbit]
    cases field with
    | none =>
      have := @ih (i + 1) pre hrest (by omega) hsize husize
      rw [encodeValues_cons_none]
      rw [this]
      rfl
    | some v =>
      rw [encodeValues_cons_some] at hsize husize ⊢
      rw [length_append] at hsize
      rw [append_assoc] at husize ⊢
      have htype : types.getD i .boolean = v.valueType := by
        have hi : i < types.length := by omega
        rw [getD_eq_getElem?_getD, getElem?_eq_getElem hi]
        exact htyped i _ v (getElem?_eq_getElem hi) hhead
      have hvalue := @decodeValue_encodeValue pre
        (encodeValues encodeValue fields ++ post) v (by omega) husize
      -- the other fields stand behind this value
      have := @ih (i + 1) (pre ++ encodeValue v) hrest (by omega) (by omega)
        (by rw [append_assoc]; exact husize)
      rw [append_assoc, length_append] at this
      rw [htype, hvalue]
      show (do
        let fields ← decodeFields _ bitmap fields.length (i + 1)
          (pre.length + (encodeValue v).length)
        Except.ok (some v :: fields)) = _
      rw [this]
      rfl

theorem length_encodeRow (schemaVersion : Nat) (fields : Row) :
    (encodeRow schemaVersion fields).length =
      5 + nullBitmapLen fields.length + (encodeValues encodeValue fields).length := by
  simp [encodeRow, encodeRowEnvelope]
  omega

/-- The header of a row and its bitmap, as a reader that expects `fieldCount` fields sees
them: `bitmap` is as much of the row's bitmap as that reader takes. -/
theorem decodeRow_encodeRow_eq (hversion : schemaVersion < 2 ^ 32)
    (hsize : (encodeRow schemaVersion fields).length ≤ usizeMax)
    (hwidth : nullBitmapLen types.length ≤ nullBitmapLen fields.length) :
    decodeRow (encodeRow schemaVersion fields) types = (do
      let fields' ← decodeFields
        (fun i pos => decodeValue (types.getD i .boolean) (encodeRow schemaVersion fields) pos)
        ((nullBitmap fields).take (nullBitmapLen types.length)) types.length 0
        (5 + nullBitmapLen types.length)
      .ok (schemaVersion, fields')) := by
  have hu8 : readU8 (encodeRow schemaVersion fields) 0 = .ok (1, 1) := by
    have := @readLe_append []
      (leBytes 4 schemaVersion ++ (nullBitmap fields ++ encodeValues encodeValue fields)) 1 1
      (by decide) hsize
    exact this
  have hu32 : readU32 (encodeRow schemaVersion fields) 1 = .ok (schemaVersion, 5) := by
    have := @readLe_append [rowFormatVersion]
      (nullBitmap fields ++ encodeValues encodeValue fields) 4 schemaVersion
      (by simpa using hversion) hsize
    exact this
  have hbitmap : readBytes (encodeRow schemaVersion fields) 5 (nullBitmapLen types.length) =
      .ok ((nullBitmap fields).take (nullBitmapLen types.length),
        5 + nullBitmapLen types.length) := by
    have hlen : ((nullBitmap fields).take (nullBitmapLen types.length)).length =
        nullBitmapLen types.length := by
      rw [length_take, length_nullBitmap, Nat.min_eq_left hwidth]
    -- the reader's bitmap, and the rest of the row's
    have hsplit : encodeRow schemaVersion fields =
        (rowFormatVersion :: leBytes 4 schemaVersion) ++
          ((nullBitmap fields).take (nullBitmapLen types.length) ++
            ((nullBitmap fields).drop (nullBitmapLen types.length) ++
              encodeValues encodeValue fields)) := by
      rw [encodeRow, ← append_assoc ((nullBitmap fields).take _),
        take_append_drop]
      rfl
    have := readBytes_append (by rw [← hsplit]; exact hsize)
    rw [← hsplit, hlen] at this
    simpa using this
  have hformat : ¬ 1 ≠ rowFormatVersion.toNat := by decide
  simp only [decodeRow, decodeRowEnvelope, hu8, ok_bind, if_neg hformat, hu32, hbitmap]

theorem testBit_take {bs : Bytes} (hi : i < 8 * n) : testBit (bs.take n) i = testBit bs i := by
  have hget : (bs.take n).getD (i / 8) 0 = bs.getD (i / 8) 0 := by
    rw [getD_eq_getElem?_getD, getD_eq_getElem?_getD, getElem?_take_of_lt (by omega)]
  rw [testBit, testBit, hget]

/-- **The first fields of a row read back** when the bitmap is as wide as the reader
takes it to be. -/
theorem decodeRow_encodeRow (hversion : schemaVersion < 2 ^ 32)
    (hsize : (encodeRow schemaVersion fields).length < 2 ^ 32)
    (hcount : types.length ≤ fields.length)
    (hwidth : nullBitmapLen types.length = nullBitmapLen fields.length)
    (htyped : Typed types fields) :
    decodeRow (encodeRow schemaVersion fields) types =
      .ok (schemaVersion, fields.take types.length) := by
  have husize : (encodeRow schemaVersion fields).length ≤ usizeMax :=
    Nat.le_trans (Nat.le_of_lt hsize) (by decide)
  rw [decodeRow_encodeRow_eq hversion husize (Nat.le_of_eq hwidth)]
  have hlen : (fields.take types.length).length = types.length := by
    rw [length_take, Nat.min_eq_left hcount]
  have hbits : ∀ i, i < types.length →
      testBit ((nullBitmap fields).take (nullBitmapLen types.length)) i =
        (fields[i]?).any (·.isNone) := by
    intro i hi
    rw [testBit_take (by have := le_nullBitmapLen types.length; omega), testBit_nullBitmap]
  -- the row's bytes, cut behind the bitmap and behind the fields that are read
  have hvalues : encodeValues encodeValue (fields.take types.length) ++
      encodeValues encodeValue (fields.drop types.length) = encodeValues encodeValue fields := by
    rw [← encodeValues_append, take_append_drop]
  have hsplit : encodeRow schemaVersion fields =
      (rowFormatVersion :: (leBytes 4 schemaVersion ++ nullBitmap fields)) ++
        (encodeValues encodeValue (fields.take types.length) ++
          encodeValues encodeValue (fields.drop types.length)) := by
    rw [hvalues, encodeRow, encodeRowEnvelope]
    simp
  have hpos : (rowFormatVersion :: (leBytes 4 schemaVersion ++ nullBitmap fields)).length =
      5 + nullBitmapLen types.length := by
    simp [hwidth]
    omega
  have hread := @decodeFields_encodeValues _ _ _ hbits htyped
    (encodeValues encodeValue (fields.drop types.length)) (fields.take types.length) 0
    (rowFormatVersion :: (leBytes 4 schemaVersion ++ nullBitmap fields))
    (by
      intro k hk
      rw [hlen] at hk
      rw [Nat.zero_add, getElem?_take_of_lt hk])
    (by omega)
    (by rw [hsplit, length_append, length_append] at hsize; omega)
    (by rw [← hsplit]; exact husize)
  rw [← hsplit, hpos, hlen] at hread
  rw [hread]
  rfl

end RubixDb.Proof
