import RubixDb.Relational.Key
import RubixDb.Proof.RowCodec

/-!
# Keys are ordered and separate

Two encoded values of one type compare as the values do, whatever stands behind them.
From that: the encoding of a primary key determines its values (up to the sign of zero),
no indexed tuple's encoding is the beginning of another's, and keys sort as tuples.
-/

namespace RubixDb.Proof

open Lib

/-! ## Integers and floating-point numbers -/

variable {x y : Bytes} {a b : RelationalValue} {as bs : List RelationalValue}

theorem xor_two_pow {a n : Nat} (h : a < 2 ^ n) : a ^^^ 2 ^ n = a + 2 ^ n := by
  rw [← Nat.or_two_pow_eq_add_of_lt h]
  apply Nat.eq_of_testBit_eq
  intro i
  rw [Nat.testBit_xor, Nat.testBit_or]
  by_cases hi : n = i
  · subst hi
    rw [Nat.testBit_lt_two_pow h]
    simp
  · simp [hi]

section Words

variable {w : Nat} {width : Nat}

theorem two_pow_eq (hw : 0 < w) : 2 ^ w = 2 * 2 ^ (w - 1) := by
  rw [← Nat.pow_succ', Nat.succ_eq_add_one, Nat.sub_add_cancel hw]

/-- A word is its sign bit and its magnitude. -/
theorem toNat_eq_sign_add (hw : 0 < w) (v : BitVec w) :
    v.toNat = (if v.msb then 2 ^ (w - 1) else 0) + v.toNat % 2 ^ (w - 1) := by
  have hpow := two_pow_eq hw
  have hmsb := BitVec.msb_eq_decide v
  by_cases h : 2 ^ (w - 1) ≤ v.toNat
  · rw [hmsb, decide_eq_true h, if_pos rfl, Nat.mod_eq_sub_mod h,
      Nat.mod_eq_of_lt (by omega)]
    omega
  · rw [hmsb, decide_eq_false h, if_neg (by decide), Nat.mod_eq_of_lt (by omega), Nat.zero_add]

theorem toNat_signFlip (hw : 0 < w) (v : BitVec w) :
    ((signFlip v).toNat : Int) = v.toInt + 2 ^ (w - 1) := by
  have hpow := two_pow_eq hw
  have hm : v.toNat % 2 ^ (w - 1) < 2 ^ (w - 1) := Nat.mod_lt _ (Nat.pow_pos (by decide))
  have hv := toNat_eq_sign_add hw v
  rw [signFlip, BitVec.toNat_xor, BitVec.toNat_intMin_of_pos hw, BitVec.toInt_eq_msb_cond]
  cases hsign : v.msb with
  | false =>
    rw [hsign] at hv
    simp only [Bool.false_eq_true, if_false, Nat.zero_add] at hv ⊢
    rw [hv, xor_two_pow hm]
    push_cast
    rfl
  | true =>
    rw [hsign] at hv
    simp only [if_true] at hv ⊢
    -- the sign bit is taken out again
    have hxor : v.toNat ^^^ 2 ^ (w - 1) = v.toNat % 2 ^ (w - 1) := by
      conv_lhs => rw [hv, Nat.add_comm, ← xor_two_pow hm, Nat.xor_assoc, Nat.xor_self,
        Nat.xor_zero]
    rw [hxor]
    have hcast : ((2 ^ w : Nat) : Int) = 2 * 2 ^ (w - 1) := by rw [hpow]; push_cast; rfl
    have hv' : (v.toNat : Int) = 2 ^ (w - 1) + (v.toNat % 2 ^ (w - 1) : Nat) := by
      conv_lhs => rw [hv]
      push_cast
      rfl
    push_cast at hcast ⊢
    push_cast at hv'
    omega

/-- The bits a floating-point number gets in a key, as a number: below the middle for the
negative ones. -/
theorem toNat_monotonic (hw : 0 < w) (bits : BitVec w) :
    ((monotonic bits).toNat : Int) =
      if floatOrder bits < 0 then 2 ^ (w - 1) - 1 + floatOrder bits
      else 2 ^ (w - 1) + floatOrder bits := by
  have hpow := two_pow_eq hw
  have hbits := toNat_eq_sign_add hw bits
  -- the sign bit of a positive number is set
  have hset : ∀ b : BitVec w, b.toNat < 2 ^ (w - 1) →
      ((b ||| BitVec.intMin w).toNat : Int) = 2 ^ (w - 1) + b.toNat := by
    intro b hb
    rw [BitVec.toNat_or, BitVec.toNat_intMin_of_pos hw, Nat.or_two_pow_eq_add_of_lt hb]
    push_cast
    omega
  have hcast : ((2 ^ (w - 1) : Nat) : Int) = 2 ^ (w - 1) := by push_cast; rfl
  rw [monotonic]
  by_cases hzero : floatOrder bits = 0
  · rw [if_pos hzero, hzero]
    simp only [BitVec.msb_zero, Bool.false_eq_true, if_false]
    rw [hset 0#w (by simp)]
    simp
  · rw [if_neg hzero]
    rw [floatOrder] at hzero ⊢
    cases hsign : bits.msb with
    | false =>
      rw [hsign] at hbits
      simp only [Bool.false_eq_true, if_false, Nat.zero_add] at hbits ⊢
      rw [hset bits (by omega)]
      omega
    | true =>
      rw [hsign] at hbits hzero
      simp only [if_true] at hbits hzero ⊢
      rw [BitVec.toNat_not]
      omega

/-- Numbers compare as what a strictly increasing function makes of them. -/
theorem compare_of_strictMono {α β : Type} [LinearOrder α] [LinearOrder β] {f : α → β}
    (hf : StrictMono f) (a b : α) : compare (f a) (f b) = compare a b := by
  rw [← cmp_eq_compare, ← cmp_eq_compare, hf.cmp_map_eq]

theorem compare_natCast (a b : Nat) : compare (a : Int) (b : Int) = compare a b :=
  compare_of_strictMono Nat.strictMono_cast a b

theorem separates_signFlip (hw : 0 < w) (hwidth : 2 ^ w = 256 ^ width) (a b : BitVec w) :
    Separates (compare a.toInt b.toInt) (beBytes width (signFlip a).toNat)
      (beBytes width (signFlip b).toNat) := by
  have h := separates_beBytes_of_lt (hwidth ▸ (signFlip a).isLt) (hwidth ▸ (signFlip b).isLt)
  rwa [← compare_natCast, toNat_signFlip hw, toNat_signFlip hw,
    compare_of_strictMono (f := (· + 2 ^ (w - 1))) fun x y hxy => by dsimp only; omega] at h

theorem separates_monotonic (hw : 0 < w) (hwidth : 2 ^ w = 256 ^ width) (a b : BitVec w) :
    Separates (compare (floatOrder a) (floatOrder b)) (beBytes width (monotonic a).toNat)
      (beBytes width (monotonic b).toNat) := by
  have h := separates_beBytes_of_lt (hwidth ▸ (monotonic a).isLt) (hwidth ▸ (monotonic b).isLt)
  rwa [← compare_natCast, toNat_monotonic hw, toNat_monotonic hw,
    compare_of_strictMono
      (f := fun x : Int => if x < 0 then 2 ^ (w - 1) - 1 + x else 2 ^ (w - 1) + x)
      fun x y hxy => by dsimp only; split <;> split <;> omega] at h

end Words

/-! ## Values -/

def isNan : RelationalValue → Bool
  | .real bits => f32IsNan bits
  | .double bits => f64IsNan bits
  | _ => false

/-- The bytes of a value in a key. -/
def keyBytes : RelationalValue → Bytes
  | .boolean v => [if v then 1 else 0]
  | .integer v => beBytes 4 (signFlip v).toNat
  | .bigint v => beBytes 8 (signFlip v).toNat
  | .real bits => beBytes 4 (monotonic bits).toNat
  | .double bits => beBytes 8 (monotonic bits).toNat
  | .decimal v _ => beBytes 16 (signFlip v).toNat
  | .text v => escapeTerminated (utf8Bytes v)
  | .blob v => escapeTerminated v
  | .date v => beBytes 4 (signFlip v).toNat
  | .time v => beBytes 8 v.toNat
  | .timestamp v => beBytes 8 (signFlip v).toNat

/-- Only not-a-number and a negative time are refused. -/
theorem encodeKeyValue_eq_ok {v : RelationalValue} :
    encodeKeyValue v = .ok x ↔
      isNan v = false ∧ (∀ t, v = .time t → ¬ t.toInt < 0) ∧ keyBytes v = x := by
  cases v with
  | real bits => cases h : f32IsNan bits <;> simp [encodeKeyValue, isNan, keyBytes, h]
  | double bits => cases h : f64IsNan bits <;> simp [encodeKeyValue, isNan, keyBytes, h]
  | time t => rw [encodeKeyValue]; split <;> simp_all [isNan, keyBytes]
  | _ => simp [encodeKeyValue, isNan, keyBytes]

/-- **Values of one type are encoded in their order**, whatever stands behind them. -/
theorem separates_encodeKeyValue (ht : a.valueType = b.valueType) (ha : encodeKeyValue a = .ok x)
    (hb : encodeKeyValue b = .ok y) : Separates (a.cmp b) x y := by
  obtain ⟨-, hposa, rfl⟩ := encodeKeyValue_eq_ok.mp ha
  obtain ⟨-, hposb, rfl⟩ := encodeKeyValue_eq_ok.mp hb
  cases a <;> cases b <;> simp only [RelationalValue.valueType, reduceCtorEq] at ht
  case boolean.boolean a b =>
    have h := separates_byte (if a then 1 else 0) (if b then 1 else 0)
    cases a <;> cases b <;> exact h
  case real.real a b => exact separates_monotonic (by decide) (by norm_num) a b
  case double.double a b => exact separates_monotonic (by decide) (by norm_num) a b
  case text.text a b => exact separates_escapeTerminated _ _
  case blob.blob a b => exact separates_escapeTerminated _ _
  case time.time a b =>
    -- a time of day is not negative, so its bits are its value
    have hval : ∀ v : BitVec 64, ¬ v.toInt < 0 → (v.toNat : Int) = v.toInt := by
      intro v hv
      rw [BitVec.toInt_eq_toNat_cond] at hv ⊢
      split at hv <;> split <;> omega
    have h := @separates_beBytes_of_lt 8 _ _ (by simpa using a.isLt) (by simpa using b.isLt)
    rwa [← compare_natCast, hval a (hposa a rfl), hval b (hposb b rfl)] at h
  all_goals exact separates_signFlip (by decide) (by norm_num) _ _

theorem utf8Bytes_inj {s t : String} : utf8Bytes s = utf8Bytes t ↔ s = t := by
  constructor
  · intro h
    have hs := fromUtf8_utf8Bytes s
    rw [h, fromUtf8_utf8Bytes] at hs
    exact (Option.some.inj hs).symm
  · intro h
    rw [h]

/-- Numbers tie exactly when they are the same value. -/
theorem cmp_eq_iff_same (ht : a.valueType = b.valueType) (ha : isNan a = false)
    (hb : isNan b = false) : a.cmp b = .eq ↔ a.same b = true := by
  cases a <;> cases b <;> simp only [RelationalValue.valueType, reduceCtorEq] at ht
  case decimal.decimal a s b t =>
    obtain rfl := RelationalType.decimal.inj ht
    simp [RelationalValue.cmp, RelationalValue.same, BitVec.toInt_inj]
  all_goals
    simp_all [isNan, RelationalValue.cmp, RelationalValue.same, BitVec.toInt_inj, utf8Bytes_inj]

/-! ## Tuples -/

/-- Tuples of one shape compare column by column. -/
def cmpTuple (as bs : List RelationalValue) : Ordering := List.compareLex RelationalValue.cmp as bs

theorem encodeCompositeKey_eq (vs : List RelationalValue) :
    encodeCompositeKey vs = concatM encodeKeyValue vs := by
  induction vs with
  | nil => rfl
  | cons v vs ih => rw [encodeCompositeKey, concatM, ih]

theorem encodeIndexedColumns_eq (vs : List (Option RelationalValue)) :
    encodeIndexedColumns vs = concatM encodeIndexedColumn vs := by
  induction vs with
  | nil => rfl
  | cons v vs ih => rw [encodeIndexedColumns, concatM, ih]

theorem forall₂_valueType :
    List.Forall₂ (fun a b => a.valueType = b.valueType) as bs ↔
      as.map RelationalValue.valueType = bs.map RelationalValue.valueType := by
  rw [← List.forall₂_eq_eq_eq, List.forall₂_map_left_iff, List.forall₂_map_right_iff]

/-- **Primary keys sort as tuples**, and no key is the beginning of another. -/
theorem separates_encodeCompositeKey
    (ht : as.map RelationalValue.valueType = bs.map RelationalValue.valueType)
    (ha : encodeCompositeKey as = .ok x) (hb : encodeCompositeKey bs = .ok y) :
    Separates (cmpTuple as bs) x y := by
  rw [encodeCompositeKey_eq] at ha hb
  refine separates_concatM ?_ (forall₂_valueType.mpr ht) ha hb
  exact fun _ _ _ _ => separates_encodeKeyValue

/-- `NULL` is below every value. -/
def cmpOption : Option RelationalValue → Option RelationalValue → Ordering
  | none, none => .eq
  | none, some _ => .lt
  | some _, none => .gt
  | some a, some b => a.cmp b

/-- The columns hold values of the same types, where both hold one. -/
def SameTypes (as bs : List (Option RelationalValue)) : Prop :=
  List.Forall₂ (fun a b => ∀ x ∈ a, ∀ y ∈ b, x.valueType = y.valueType) as bs

theorem separates_encodeIndexedColumn {a b : Option RelationalValue}
    (ht : ∀ v ∈ a, ∀ w ∈ b, v.valueType = w.valueType) (ha : encodeIndexedColumn a = .ok x)
    (hb : encodeIndexedColumn b = .ok y) : Separates (cmpOption a b) x y := by
  cases a with
  | none =>
    cases ha
    cases b with
    | none =>
      cases hb
      exact separates_self _
    | some w =>
      obtain ⟨yb, -, hb⟩ := bind_eq_ok.mp hb
      cases hb
      exact separates_tags (by decide) [] yb
  | some v =>
    obtain ⟨xa, hxa, ha⟩ := bind_eq_ok.mp ha
    cases ha
    cases b with
    | none =>
      cases hb
      exact separates_tags (by decide) xa []
    | some w =>
      obtain ⟨yb, hyb, hb⟩ := bind_eq_ok.mp hb
      cases hb
      exact (separates_encodeKeyValue (ht v rfl w rfl) hxa hyb).cons _

/-- **Indexed tuples sort column by column**, `NULL`s first, and none is the beginning of
another. -/
theorem separates_encodeIndexedColumns {as bs : List (Option RelationalValue)}
    (ht : SameTypes as bs) (ha : encodeIndexedColumns as = .ok x)
    (hb : encodeIndexedColumns bs = .ok y) : Separates (List.compareLex cmpOption as bs) x y := by
  rw [encodeIndexedColumns_eq] at ha hb
  refine separates_concatM ?_ ht ha hb
  exact fun _ _ _ _ => separates_encodeIndexedColumn

/-- Away from zero the order determines the bits. -/
theorem eq_of_floatOrder_eq {w : Nat} (hw : 0 < w) {a b : BitVec w}
    (h : floatOrder a = floatOrder b) (hne : floatOrder a ≠ 0) : a = b := by
  have ha := toNat_eq_sign_add hw a
  have hb := toNat_eq_sign_add hw b
  rw [floatOrder] at h hne
  rw [floatOrder] at h
  apply BitVec.eq_of_toNat_eq
  cases hsa : a.msb <;> cases hsb : b.msb <;> rw [hsa] at ha h hne <;> rw [hsb] at hb h <;>
    simp only [if_true, Bool.false_eq_true, if_false, Nat.zero_add] at ha hb h hne <;> omega

/-- Keys that encode alike have the same values. -/
theorem same_of_encodeCompositeKey
    (ht : as.map RelationalValue.valueType = bs.map RelationalValue.valueType)
    (ha : encodeCompositeKey as = .ok x) (hb : encodeCompositeKey bs = .ok x) :
    List.Forall₂ (fun a b => a.same b = true) as bs := by
  rw [encodeCompositeKey_eq] at ha hb
  replace ht := forall₂_valueType.mpr ht
  induction ht generalizing x with
  | nil => exact .nil
  | cons hab _ ih =>
    obtain ⟨xa, xas, hxa, hxas, rfl⟩ := concatM_cons_eq_ok.mp ha
    obtain ⟨yb, ybs, hyb, hybs, heq⟩ := concatM_cons_eq_ok.mp hb
    obtain ⟨htie, rfl⟩ := (separates_encodeKeyValue hab hxa hyb).eq_of_append heq
    refine .cons ?_ (ih hxas hybs)
    exact (cmp_eq_iff_same hab (encodeKeyValue_eq_ok.mp hxa).1
      (encodeKeyValue_eq_ok.mp hyb).1).mp htie

end RubixDb.Proof
