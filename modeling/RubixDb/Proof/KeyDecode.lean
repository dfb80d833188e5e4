import RubixDb.Proof.KeyCodec

/-!
# Keys decode to what was encoded

Reading a key back, value by value: each reader stops where the encoding of its value
ends, whatever stands behind it, and returns the value, a negative zero made positive.
Together with the order of the encodings this is all that the layers above rely on.
-/

namespace RubixDb.Proof

open Lib List

variable {n w : Nat} {x : Bytes} {types : List RelationalType}
    {as bs : List (Option RelationalValue)}

/-! ## Reading bytes -/

variable {pre post : Bytes}

theorem takeKey_append (x : Bytes) :
    takeKey (pre ++ (x ++ post)) pre.length x.length = .ok (x, pre.length + x.length) := by
  rw [takeKey, if_pos (by simp only [length_append]; omega), drop_left, take_left]

theorem beNat_beBytes {width : Nat} : beNat (beBytes width n) = n % 256 ^ width := by
  induction width with
  | zero => simp [beBytes, beNat, Nat.mod_one]
  | succ width ih =>
    have hdigit : (UInt8.ofNat (n / 256 ^ width % 256)).toNat = n / 256 ^ width % 256 := by
      simp [UInt8.toNat_ofNat']
    rw [beBytes, beNat, ih, length_beBytes, hdigit, Nat.pow_succ, Nat.mod_mul, Nat.mul_comm,
      Nat.add_comm]

theorem takeBits_append {bits width : Nat} (hw : 2 ^ bits = 256 ^ width) (v : BitVec bits) :
    takeBits bits width (pre ++ (beBytes width v.toNat ++ post)) pre.length =
      .ok (v, pre.length + (beBytes width v.toNat).length) := by
  have h := @takeKey_append pre post (beBytes width v.toNat)
  have hv : BitVec.ofNat bits (beNat (beBytes width v.toNat)) = v := by
    rw [beNat_beBytes, Nat.mod_eq_of_lt (hw ▸ v.isLt), BitVec.ofNat_toNat, BitVec.setWidth_eq]
  rw [length_beBytes] at h ⊢
  rw [takeBits, h, ok_bind]
  simp only [hv]

theorem unescapeTerminated_of_ne_zero {b : UInt8} (hb : b ≠ 0) (pos : Nat) (bs : Bytes) :
    unescapeTerminated pos (b :: bs) =
      (unescapeTerminated (pos + 1) bs).map fun r => (b :: r.1, r.2) := by
  cases bs <;> conv_lhs => rw [unescapeTerminated, if_neg hb]

/-- An escaped string ends at its terminator. -/
theorem unescapeTerminated_append (x : Bytes) (pos : Nat) :
    unescapeTerminated pos (escapeTerminated x ++ post) =
      .ok (x, pos + (escapeTerminated x).length) := by
  induction x generalizing pos with
  | nil => rfl
  | cons b x ih =>
    rw [escapeTerminated, append_assoc, length_append]
    by_cases hb : b = 0
    · -- an escaped zero byte
      subst hb
      simp only [if_true, cons_append, nil_append, unescapeTerminated,
        show (255 : UInt8) ≠ 0 by decide, if_false, ih, Except.map, length_cons,
        length_nil]
      congr 2
      omega
    · rw [if_neg hb, singleton_append, unescapeTerminated_of_ne_zero hb, ih]
      simp only [Except.map, length_singleton]
      congr 2
      omega

/-! ## One value -/

theorem signFlip_signFlip (v : BitVec w) : signFlip (signFlip v) = v := by
  rw [signFlip, signFlip, BitVec.xor_assoc, BitVec.xor_self, BitVec.xor_zero]

/-- The transform of floating-point bits is undone, up to the sign of zero. -/
theorem unmonotonic_monotonic (hw : 0 < w) (bits : BitVec w) :
    unmonotonic (monotonic bits) = if floatOrder bits = 0 then 0 else bits := by
  rw [monotonic]
  generalize (if floatOrder bits = 0 then 0#w else bits) = c
  cases hsign : c.msb with
  | true =>
    have hflip : (~~~c).msb = false := by rw [BitVec.msb_not, hsign]; simp
    simp only [if_true, unmonotonic, hflip, Bool.false_eq_true, if_false, BitVec.not_not]
  | false =>
    have hset : (c ||| BitVec.intMin w).msb = true := by
      rw [BitVec.msb_or, BitVec.msb_intMin, decide_eq_true hw, Bool.or_true]
    simp only [Bool.false_eq_true, if_false, unmonotonic, hset, if_true]
    -- taking the sign bit out again leaves the number, whose sign bit was not set
    ext i hi
    have hc : i + 1 = w → c.getLsbD i = false := by
      intro h
      rw [BitVec.msb_eq_getLsbD_last] at hsign
      have hlast : w - 1 = i := by omega
      rwa [hlast] at hsign
    simp only [← BitVec.getLsbD_eq_getElem, BitVec.getLsbD_and, BitVec.getLsbD_or,
      BitVec.getLsbD_not, BitVec.getLsbD_intMin]
    by_cases h : i + 1 = w
    · rw [hc h]
      simp [h]
    · simp [h, hi]

/-- **A value is read back**, and exactly its encoding is consumed. -/
theorem decodeKeyValue_append {v : RelationalValue} {x : Bytes} (hx : encodeKeyValue v = .ok x) :
    decodeKeyValue v.valueType (pre ++ (x ++ post)) pre.length =
      .ok (v.canonical, pre.length + x.length) := by
  obtain ⟨-, -, rfl⟩ := encodeKeyValue_eq_ok.mp hx
  have h32 : 2 ^ 32 = 256 ^ 4 := by norm_num
  have h64 : 2 ^ 64 = 256 ^ 8 := by norm_num
  have h128 : 2 ^ 128 = 256 ^ 16 := by norm_num
  cases v with
  | boolean v =>
    have h := @takeKey_append pre post [if v then 1 else 0]
    rw [RelationalValue.valueType, keyBytes, decodeKeyValue]
    rw [length_singleton] at h ⊢
    rw [h]
    cases v <;> rfl
  | integer v | date v =>
    rw [RelationalValue.valueType, keyBytes, decodeKeyValue, takeBits_append h32]
    simp only [Except.map, signFlip_signFlip, RelationalValue.canonical]
  | bigint v | timestamp v =>
    rw [RelationalValue.valueType, keyBytes, decodeKeyValue, takeBits_append h64]
    simp only [Except.map, signFlip_signFlip, RelationalValue.canonical]
  | decimal v scale =>
    rw [RelationalValue.valueType, keyBytes, decodeKeyValue, takeBits_append h128]
    simp only [Except.map, signFlip_signFlip, RelationalValue.canonical]
  | real bits =>
    rw [RelationalValue.valueType, keyBytes, decodeKeyValue, takeBits_append h32]
    simp only [Except.map, unmonotonic_monotonic (show 0 < 32 by decide), RelationalValue.canonical]
  | double bits =>
    rw [RelationalValue.valueType, keyBytes, decodeKeyValue, takeBits_append h64]
    simp only [Except.map, unmonotonic_monotonic (show 0 < 64 by decide), RelationalValue.canonical]
  | time v =>
    rw [RelationalValue.valueType, keyBytes, decodeKeyValue, takeBits_append h64]
    rfl
  | text v =>
    rw [RelationalValue.valueType, keyBytes, decodeKeyValue, drop_left,
      unescapeTerminated_append, ok_bind]
    simp only [fromUtf8_utf8Bytes, RelationalValue.canonical]
  | blob v =>
    rw [RelationalValue.valueType, keyBytes, decodeKeyValue, drop_left,
      unescapeTerminated_append]
    rfl

/-! ## Tuples -/

/-- **A tuple is read back**, by induction on it; the position runs along with what has
been read. -/
theorem decodeKeyValues_append {vs : List RelationalValue} :
    ∀ {pre x : Bytes}, encodeCompositeKey vs = .ok x →
      decodeKeyValues (pre ++ (x ++ post)) pre.length (vs.map RelationalValue.valueType) =
        .ok (vs.map RelationalValue.canonical, pre.length + x.length) := by
  induction vs with
  | nil =>
    intro pre x hx
    cases hx
    rfl
  | cons v vs ih =>
    intro pre x hx
    obtain ⟨head, hhead, hx⟩ := bind_eq_ok.mp hx
    obtain ⟨tail, htail, hx⟩ := bind_eq_ok.mp hx
    cases hx
    have hrest := @ih (pre ++ head) tail htail
    rw [append_assoc, length_append] at hrest
    rw [map_cons, decodeKeyValues, append_assoc, decodeKeyValue_append hhead]
    simp only [hrest, ok_bind]
    rw [map_cons, length_append, Nat.add_assoc]

theorem decodeCompositeKey_encodeCompositeKey {vs : List RelationalValue}
    (hx : encodeCompositeKey vs = .ok x) :
    decodeCompositeKey (vs.map RelationalValue.valueType) x =
      .ok (vs.map RelationalValue.canonical) := by
  have h := @decodeKeyValues_append [] vs [] x hx
  rw [append_nil, nil_append, length_nil] at h
  rw [decodeCompositeKey, h]
  simp

/-- The columns hold `NULL` or a value of their type. -/
def OfTypes (values : List (Option RelationalValue)) (types : List RelationalType) : Prop :=
  List.Forall₂ (fun value ty => ∀ v ∈ value, v.valueType = ty) values types

theorem decodeIndexedColumns_append {values : List (Option RelationalValue)}
    {types : List RelationalType} (ht : OfTypes values types) :
    ∀ {pre x : Bytes}, encodeIndexedColumns values = .ok x →
      decodeIndexedColumns (pre ++ (x ++ post)) pre.length types =
        .ok (values.map (·.map RelationalValue.canonical), pre.length + x.length) := by
  induction ht with
  | nil =>
    intro pre x hx
    cases hx
    rfl
  | @cons value ty values types hv _ ih =>
    intro pre x hx
    obtain ⟨head, hhead, hx⟩ := bind_eq_ok.mp hx
    obtain ⟨tail, htail, hx⟩ := bind_eq_ok.mp hx
    cases hx
    have hrest := @ih (pre ++ head) tail htail
    rw [append_assoc, length_append] at hrest
    rw [append_assoc]
    cases value with
    | none =>
      cases hhead
      rw [decodeIndexedColumns, getElem?_append_right (Nat.le_refl _), Nat.sub_self]
      rw [length_singleton] at hrest
      simp only [singleton_append, getElem?_cons_zero, if_true] at hrest ⊢
      rw [hrest, ok_bind, length_cons]
      congr 2
      omega
    | some v =>
      obtain ⟨bytes, hbytes, hhead⟩ := bind_eq_ok.mp hhead
      cases hhead
      rw [decodeIndexedColumns, getElem?_append_right (Nat.le_refl _), Nat.sub_self]
      -- behind the tag stands the value
      have hval := @decodeKeyValue_append (pre ++ [indexedPresentTag]) (tail ++ post) v bytes hbytes
      rw [hv v rfl, append_assoc, singleton_append, length_append,
        length_singleton] at hval
      simp only [cons_append, getElem?_cons_zero,
        show indexedPresentTag ≠ indexedNullTag by decide, if_false, if_true]
      rw [hval, ok_bind]
      rw [length_cons] at hrest
      have hpos : pre.length + 1 + bytes.length = pre.length + (bytes.length + 1) := by omega
      simp only [hpos]
      rw [show pre ++ indexedPresentTag :: (bytes ++ (tail ++ post)) =
        pre ++ (indexedPresentTag :: bytes ++ (tail ++ post)) from rfl, hrest, ok_bind]
      congr 2
      simp only [length_cons, length_append]
      omega

/-! ## What the encoding identifies -/

theorem magnitude_eq_zero {bits : BitVec w} (h : floatOrder bits = 0) :
    bits.toNat % 2 ^ (w - 1) = 0 := by
  rw [floatOrder] at h
  split at h <;> omega

theorem f32IsNan_zeroed (bits : BitVec 32) :
    f32IsNan (if floatOrder bits = 0 then 0 else bits) = f32IsNan bits := by
  by_cases h : floatOrder bits = 0
  · rw [if_pos h, f32IsNan, f32IsNan, magnitude_eq_zero h]
    rfl
  · rw [if_neg h]

theorem f64IsNan_zeroed (bits : BitVec 64) :
    f64IsNan (if floatOrder bits = 0 then 0 else bits) = f64IsNan bits := by
  by_cases h : floatOrder bits = 0
  · rw [if_pos h, f64IsNan, f64IsNan, magnitude_eq_zero h]
    rfl
  · rw [if_neg h]

theorem monotonic_zeroed (bits : BitVec w) :
    monotonic (if floatOrder bits = 0 then 0 else bits) = monotonic bits := by
  by_cases h : floatOrder bits = 0
  · have h0 : floatOrder (0 : BitVec w) = 0 := by simp [floatOrder]
    simp only [monotonic, h, h0, if_true]
  · rw [if_neg h]

@[simp] theorem encodeKeyValue_canonical (v : RelationalValue) :
    encodeKeyValue v.canonical = encodeKeyValue v := by
  cases v with
  | real bits => rw [RelationalValue.canonical, encodeKeyValue, encodeKeyValue, f32IsNan_zeroed,
      monotonic_zeroed]
  | double bits => rw [RelationalValue.canonical, encodeKeyValue, encodeKeyValue, f64IsNan_zeroed,
      monotonic_zeroed]
  | _ => rfl

theorem encodeCompositeKey_canonical (vs : List RelationalValue) :
    encodeCompositeKey (vs.map RelationalValue.canonical) = encodeCompositeKey vs := by
  rw [encodeCompositeKey_eq, encodeCompositeKey_eq, concatM_map encodeKeyValue_canonical]

theorem encodeIndexedColumns_canonical (values : List (Option RelationalValue)) :
    encodeIndexedColumns (values.map (·.map RelationalValue.canonical)) =
      encodeIndexedColumns values := by
  rw [encodeIndexedColumns_eq, encodeIndexedColumns_eq]
  refine concatM_map (fun value => ?_) values
  cases value with
  | none => rfl
  | some v =>
    rw [Option.map_some, encodeIndexedColumn, encodeIndexedColumn, encodeKeyValue_canonical]

/-! ## Leading columns -/

/-- The encoding of a tuple is that of its leading values and of the rest. -/
theorem encodeCompositeKey_append {as bs : List RelationalValue}
    (hx : encodeCompositeKey (as ++ bs) = .ok x) :
    ∃ y z, encodeCompositeKey as = .ok y ∧ encodeCompositeKey bs = .ok z ∧ x = y ++ z := by
  simp only [encodeCompositeKey_eq] at hx ⊢
  exact concatM_append_eq_ok hx

theorem encodeIndexedColumns_append (hx : encodeIndexedColumns (as ++ bs) = .ok x) :
    ∃ y z, encodeIndexedColumns as = .ok y ∧ encodeIndexedColumns bs = .ok z ∧ x = y ++ z := by
  simp only [encodeIndexedColumns_eq] at hx ⊢
  exact concatM_append_eq_ok hx

theorem OfTypes.sameTypes :
    ∀ {types : List RelationalType}, OfTypes as types → OfTypes bs types → SameTypes as bs := by
  intro types ha
  induction ha generalizing bs with
  | nil =>
    intro hb
    cases hb
    exact .nil
  | cons h _ ih =>
    intro hb
    cases hb with
    | cons h' hb => exact .cons (fun x hx y hy => (h x hx).trans (h' y hy).symm) (ih hb)

/-- Tuples of one shape with one encoding are one tuple. -/
theorem canonical_eq_of_encodeCompositeKey {as bs : List RelationalValue}
    (ht : as.map RelationalValue.valueType = bs.map RelationalValue.valueType)
    (ha : encodeCompositeKey as = .ok x) (hb : encodeCompositeKey bs = .ok x) :
    as.map RelationalValue.canonical = bs.map RelationalValue.canonical := by
  have h := decodeCompositeKey_encodeCompositeKey ha
  rw [ht, decodeCompositeKey_encodeCompositeKey hb] at h
  exact (Except.ok.inj h).symm

theorem canonical_eq_of_encodeIndexedColumns (hta : OfTypes as types) (htb : OfTypes bs types)
    (ha : encodeIndexedColumns as = .ok x) (hb : encodeIndexedColumns bs = .ok x) :
    as.map (·.map RelationalValue.canonical) = bs.map (·.map RelationalValue.canonical) := by
  have h := @decodeIndexedColumns_append [] as types hta [] x ha
  rw [@decodeIndexedColumns_append [] bs types htb [] x hb] at h
  exact (Prod.mk.inj (Except.ok.inj h)).1.symm

theorem compare_of_separates {o : Ordering} {y : Bytes}
    (h : Separates o x y) : compare x y = o := by
  have h := h [] []
  rw [append_nil, append_nil] at h
  rw [h]
  cases o <;> rfl

/-- Leading values encode to a beginning of the key exactly when the key starts with them. -/
theorem isPrefix_encodeCompositeKey_iff {sub as : List RelationalValue} {z : Bytes}
    (ht : sub.map RelationalValue.valueType = (as.map RelationalValue.valueType).take n)
    (hz : encodeCompositeKey sub = .ok z) (hx : encodeCompositeKey as = .ok x) :
    z <+: x ↔ sub.map RelationalValue.canonical = (as.map RelationalValue.canonical).take n := by
  rw [← map_take] at ht ⊢
  have hiff : z <+: x ↔ encodeCompositeKey (as.take n) = .ok z := by
    rw [encodeCompositeKey_eq] at hz hx ⊢
    refine isPrefix_concatM_iff RelationalValue.cmp ?_ (forall₂_valueType.mpr ht) hz hx
    exact fun _ _ _ _ => separates_encodeKeyValue
  rw [hiff]
  refine ⟨canonical_eq_of_encodeCompositeKey ht hz, fun h => ?_⟩
  rw [← encodeCompositeKey_canonical, ← h, encodeCompositeKey_canonical, hz]

theorem isPrefix_encodeIndexedColumns_iff {sub : List (Option RelationalValue)} {z : Bytes}
    (hsub : OfTypes sub (types.take n)) (has : OfTypes as types)
    (hz : encodeIndexedColumns sub = .ok z) (hx : encodeIndexedColumns as = .ok x) :
    z <+: x ↔ sub.map (·.map RelationalValue.canonical) =
      (as.map (·.map RelationalValue.canonical)).take n := by
  rw [← map_take]
  have htake : OfTypes (as.take n) (types.take n) := forall₂_take n has
  have hiff : z <+: x ↔ encodeIndexedColumns (as.take n) = .ok z := by
    rw [encodeIndexedColumns_eq] at hz hx ⊢
    refine isPrefix_concatM_iff cmpOption ?_ (hsub.sameTypes htake) hz hx
    exact fun _ _ _ _ => separates_encodeIndexedColumn
  rw [hiff]
  refine ⟨canonical_eq_of_encodeIndexedColumns hsub htake hz, fun h => ?_⟩
  rw [← encodeIndexedColumns_canonical, ← h, encodeIndexedColumns_canonical, hz]

/-- **The key encoding is order-preserving and can be read back.** For tuples of any column
types that the encoder accepts, with and without `NULL`s: encodings compare as the tuples
do column by column, equal encodings are of equal tuples, decoding returns the tuple and
consumes exactly its encoding, and leading values encode to a beginning of a key exactly
when the key starts with them. Tuples are equal up to the sign of zero. -/
theorem key_encoding_faithful (types : List RelationalType) :
    (∀ as bs x y, as.map RelationalValue.valueType = types →
      bs.map RelationalValue.valueType = types →
      encodeCompositeKey as = .ok x → encodeCompositeKey bs = .ok y →
        compare x y = List.compareLex RelationalValue.cmp as bs ∧
        (x = y → as.map RelationalValue.canonical = bs.map RelationalValue.canonical) ∧
        decodeCompositeKey types x = .ok (as.map RelationalValue.canonical) ∧
        ∀ n sub z, sub.map RelationalValue.valueType = types.take n →
          encodeCompositeKey sub = .ok z →
          (z <+: x ↔ sub.map RelationalValue.canonical =
            (as.map RelationalValue.canonical).take n)) ∧
    (∀ as bs x y, OfTypes as types → OfTypes bs types →
      encodeIndexedColumns as = .ok x → encodeIndexedColumns bs = .ok y →
        compare x y = List.compareLex cmpOption as bs ∧
        (x = y → as.map (·.map RelationalValue.canonical) =
          bs.map (·.map RelationalValue.canonical)) ∧
        (∀ rest, decodeIndexedColumns (x ++ rest) 0 types =
          .ok (as.map (·.map RelationalValue.canonical), x.length)) ∧
        ∀ n sub z, OfTypes sub (types.take n) → encodeIndexedColumns sub = .ok z →
          (z <+: x ↔ sub.map (·.map RelationalValue.canonical) =
            (as.map (·.map RelationalValue.canonical)).take n)) := by
  constructor
  · intro as bs x y hta htb ha hb
    refine ⟨compare_of_separates (separates_encodeCompositeKey (hta.trans htb.symm) ha hb),
      ?_, ?_, ?_⟩
    · rintro rfl
      exact canonical_eq_of_encodeCompositeKey (hta.trans htb.symm) ha hb
    · rw [← hta]
      exact decodeCompositeKey_encodeCompositeKey ha
    · intro n sub z hsub hz
      rw [← hta] at hsub
      exact isPrefix_encodeCompositeKey_iff hsub hz ha
  · intro as bs x y hta htb ha hb
    refine ⟨compare_of_separates (separates_encodeIndexedColumns (hta.sameTypes htb) ha hb),
      ?_, ?_, ?_⟩
    · rintro rfl
      exact canonical_eq_of_encodeIndexedColumns hta htb ha hb
    · intro rest
      have h := @decodeIndexedColumns_append rest as types hta [] x ha
      rwa [length_nil, Nat.zero_add] at h
    · intro n sub z hsub hz
      exact isPrefix_encodeIndexedColumns_iff hsub hta hz ha

/-- A negative zero and a text with a zero byte in it, next to a `NULL`. -/
theorem key_encoding_faithful_double_text :
    decodeCompositeKey [.double, .text]
        [0x80, 0, 0, 0, 0, 0, 0, 0, 0x61, 0, 0xFF, 0, 0] =
      .ok [.double 0, .text "a\x00"] ∧
    compare [0x00, 0x01, 0x80, 0, 0, 0] [0x01, 0x7F, 0xFF, 0xFF, 0xFF, 0x00] =
      List.compareLex cmpOption [none, some (.integer 0)] [some (.integer (-1)), none] := by
  constructor
  · exact ((key_encoding_faithful [.double, .text]).1
      [.double 0x8000000000000000, .text "a\x00"] [.double 0, .text "a\x00"] _ _
        rfl rfl rfl rfl).2.2.1
  · have ht : OfTypes [none, some (.integer 0)] [.integer, .integer] := by
      simp [OfTypes, RelationalValue.valueType]
    have ht' : OfTypes [some (.integer (-1)), none] [.integer, .integer] := by
      simp [OfTypes, RelationalValue.valueType]
    exact ((key_encoding_faithful [.integer, .integer]).2 _ _ _ _ ht ht' rfl rfl).1

end RubixDb.Proof
