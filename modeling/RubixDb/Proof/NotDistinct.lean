import RubixDb.Sql.SetOp
import RubixDb.Proof.KeyCodec

/-!
# Rows that are not distinct

Being not distinct is having the same canonical form: the form in which `groupingValue`
puts each value, and which the hash is taken of. So it is an equivalence, rows that are
not distinct hash alike, and a hash table over rows finds exactly the row it is asked for.
-/

namespace RubixDb.Proof

open Lib SetOp

/-! ## Values -/

/-- Two floating-point numbers are the same, or both are not numbers, exactly when they
have one canonical form. -/
theorem canonical_bits_eq_iff {w : Nat} (hw : 0 < w) {isNan : BitVec w → Bool} {nan : BitVec w}
    (hnan : isNan nan = true) (hzero : isNan 0#w = false) (p q : BitVec w) :
    ((isNan p && isNan q) || (!isNan p && !isNan q && floatOrder p == floatOrder q)) = true ↔
      (if isNan p then nan else if floatOrder p = 0 then 0#w else p) =
        (if isNan q then nan else if floatOrder q = 0 then 0#w else q) := by
  have horder : floatOrder 0#w = 0 := by simp [floatOrder]
  -- not-a-number is not the canonical form of a number
  have hnumber : ∀ b : BitVec w, isNan b = false →
      (if floatOrder b = 0 then 0#w else b) ≠ nan := by
    intro b hb heq
    split at heq
    · rw [← heq, hzero] at hnan
      cases hnan
    · rw [← heq, hb] at hnan
      cases hnan
  cases hp : isNan p <;> cases hq : isNan q
  case false.false =>
    simp only [Bool.and_self, Bool.false_or, Bool.not_false, Bool.true_and, beq_iff_eq,
      Bool.false_eq_true, if_false]
    constructor
    · intro h
      rw [h]
      split_ifs with hne
      · rfl
      · exact eq_of_floatOrder_eq hw h (h ▸ hne)
    · intro h
      split at h <;> split at h
      · omega
      · rename_i hp0 hq0
        rw [← h] at hq0
        exact absurd horder hq0
      · rename_i hp0 hq0
        rw [h] at hp0
        exact absurd horder hp0
      · rw [h]
  case false.true => simp [hnumber p hp]
  case true.false => simp [(hnumber q hq).symm]
  case true.true => simp

theorem groupingValue_real (p : BitVec 32) : groupingValue (.real p) =
    .real (if f32IsNan p then 0x7FC00000#32 else if floatOrder p = 0 then 0#32 else p) := by
  rw [groupingValue]
  split_ifs <;> rfl

theorem groupingValue_double (p : BitVec 64) : groupingValue (.double p) =
    .double (if f64IsNan p then 0x7FF8000000000000#64
      else if floatOrder p = 0 then 0#64 else p) := by
  rw [groupingValue]
  split_ifs <;> rfl

theorem valuesNotDistinct_iff (a b : Option RelationalValue) :
    valuesNotDistinct a b = true ↔ a.map groupingValue = b.map groupingValue := by
  rcases a with _ | a <;> rcases b with _ | b
  · simp [valuesNotDistinct]
  · simp [valuesNotDistinct]
  · simp [valuesNotDistinct]
  · rw [Option.map_some, Option.map_some, Option.some.injEq]
    cases a <;> cases b
    case real.real p q =>
      rw [groupingValue_real, groupingValue_real, RelationalValue.real.injEq]
      exact canonical_bits_eq_iff (by decide) (by decide) (by decide) p q
    case double.double p q =>
      rw [groupingValue_double, groupingValue_double, RelationalValue.double.injEq]
      exact canonical_bits_eq_iff (by decide) (by decide) (by decide) p q
    -- a value that is no floating-point number is its own canonical form, and the
    -- canonical form of one has its type
    all_goals
      try rw [groupingValue_real]
      try rw [groupingValue_double]
      simp [valuesNotDistinct, groupingValue]

/-- The derived equality is being not distinct, but for not-a-number. -/
theorem same_iff (a b : RelationalValue) :
    a.same b = true ↔ groupingValue a = groupingValue b ∧ isNan a = false := by
  have hiff := valuesNotDistinct_iff (some a) (some b)
  rw [Option.map_some, Option.map_some, Option.some.injEq] at hiff
  rw [← hiff]
  cases a <;> cases b
  case real.real p q =>
    cases hp : f32IsNan p <;> simp [RelationalValue.same, valuesNotDistinct, isNan, hp]
  case double.double p q =>
    cases hp : f64IsNan p <;> simp [RelationalValue.same, valuesNotDistinct, isNan, hp]
  all_goals simp [RelationalValue.same, valuesNotDistinct, isNan]

theorem rowsNotDistinct_iff : ∀ a b : Row,
    rowsNotDistinct a b = true ↔ a.map (Option.map groupingValue) = b.map (Option.map groupingValue)
  | [], [] => by simp [rowsNotDistinct]
  | [], _ :: _ => by simp [rowsNotDistinct]
  | _ :: _, [] => by simp [rowsNotDistinct]
  | x :: a, y :: b => by
    have ih := rowsNotDistinct_iff a b
    simp only [rowsNotDistinct, Bool.and_eq_true, beq_iff_eq] at ih
    simp only [rowsNotDistinct, List.length_cons, List.zip_cons_cons, List.all_cons,
      Bool.and_eq_true, beq_iff_eq, List.map_cons, List.cons.injEq, ← ih, ← valuesNotDistinct_iff]
    constructor
    · rintro ⟨hlen, hxy, hrest⟩
      exact ⟨hxy, by omega, hrest⟩
    · rintro ⟨hxy, hlen, hrest⟩
      exact ⟨by omega, hxy, hrest⟩

/-! ## Rows -/

theorem rowsNotDistinct_comm (a b : Row) : rowsNotDistinct a b = rowsNotDistinct b a := by
  rw [Bool.eq_iff_iff, rowsNotDistinct_iff, rowsNotDistinct_iff]
  exact eq_comm

theorem rowsNotDistinct_refl (a : Row) : rowsNotDistinct a a = true :=
  (rowsNotDistinct_iff a a).mpr rfl

/-- Rows that are not distinct are told apart from the same rows. -/
theorem rowsNotDistinct_congr {a b : Row} (h : rowsNotDistinct a b = true) (c : Row) :
    rowsNotDistinct a c = rowsNotDistinct b c := by
  rw [Bool.eq_iff_iff, rowsNotDistinct_iff, rowsNotDistinct_iff, (rowsNotDistinct_iff a b).mp h]

theorem hashInput_eq {a b : Row} (h : rowsNotDistinct a b = true) : hashInput a = hashInput b := by
  have heq := (rowsNotDistinct_iff a b).mp h
  have hlen := congrArg List.length heq
  rw [List.length_map, List.length_map] at hlen
  rw [hashInput, hashInput, heq, hlen]

/-- Whatever the hasher, a table looks for the rows that are not distinct from the key. -/
theorem sameKey_eq (env : Env) (a b : Row) : env.sameKey a b = rowsNotDistinct a b := by
  unfold Env.sameKey
  cases h : rowsNotDistinct a b with
  | false => rw [Bool.and_false]
  | true => rw [hashInput_eq h, beq_self_eq_true, Bool.and_true]

theorem any_sameKey (env : Env) (rows : List Row) (row : Row) :
    (rows.any fun key => env.sameKey key row) = rows.any (rowsNotDistinct row) := by
  congr 1
  funext key
  rw [sameKey_eq, rowsNotDistinct_comm]

end RubixDb.Proof
