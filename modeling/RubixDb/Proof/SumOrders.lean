import RubixDb.Lib.CheckedSum
import RubixDb.Sql.Aggregate

/-!
# The order in which an aggregate reads its rows

The rows of a group come in the order of the access path the planner chose. `COUNT`, `MIN`
and `MAX` of exact numbers do not depend on it. `SUM` checks every partial sum against the
range of the result, so a sum that is in range may fail in one order and not in another.
It depends on the order exactly when the numbers of one sign alone leave the range while
the total does not.

What reaches the state is the values that are not `NULL`, under `DISTINCT` each once; both
filters take the orders of their input to the orders of their output.
-/

namespace RubixDb.Proof

open Lib Aggregate List

variable {v w : RelationalValue} {state : AggregateState} {vs : List RelationalValue}
    {wanted : Ordering} {op : Int → Int → Int} {ty : RelationalType} {func : AggregateFunc}
    {isWildcard distinct : Bool} {inputType : Option RelationalType}
    {vals : List (Option RelationalValue)}

/-! ## Exact numbers -/

/-- An INTEGER, a BIGINT or a DECIMAL of this scale. -/
def ExactNumber (scale : UInt8) : RelationalValue → Prop
  | .integer _ => True
  | .bigint _ => True
  | .decimal _ s => s = scale
  | _ => False

def numberOf : RelationalValue → Int
  | .integer v => v.toInt
  | .bigint v => v.toInt
  | .decimal v _ => v.toInt
  | _ => 0

theorem ExactNumber.groupingValue_eq (h : ExactNumber scale v) : groupingValue v = v := by
  cases v <;> first | rfl | exact h.elim

/-- An exact number is its type and its number. -/
theorem ExactNumber.eq_of (hv : ExactNumber scale v) (htype : v.valueType = w.valueType)
    (hnumber : numberOf v = numberOf w) : v = w := by
  cases v <;> first | exact hv.elim | skip
  all_goals
    cases w <;> cases htype
    rw [BitVec.eq_of_toInt_eq hnumber]

theorem orderValue_eq (hv : ExactNumber scale v)
    (hw : ExactNumber scale w) : (orderValue v w).toOption =
      if v.valueType = w.valueType then some (compare (numberOf v) (numberOf w)) else none := by
  cases v <;> first | exact hv.elim | skip
  all_goals cases w <;> first | exact hw.elim | skip
  case decimal.decimal d s e t =>
    obtain rfl : s = scale := hv
    obtain rfl : t = s := hw
    simp [orderValue, RelationalValue.valueType, numberOf, Except.toOption]
  all_goals simp [orderValue, RelationalValue.valueType, numberOf, Except.toOption]

/-! ## What reaches the state -/

theorem toOption_bind (x : Except ε β) (f : β → Except ε γ) :
    (x >>= f).toOption = x.toOption.bind fun b => (f b).toOption := by
  cases x <;> rfl

section Runs

variable (fp : FloatOps)

/-- The state after values that are not `NULL`, none if one of them failed. -/
def feedState (state : AggregateState) (vs : List RelationalValue) : Option AggregateState :=
  vs.foldlM (fun state v => (state.updateValue fp v).toOption) state

theorem feedState_cons (state : AggregateState) (v : RelationalValue) (vs : List RelationalValue) :
    feedState fp state (v :: vs) =
      (state.updateValue fp v).toOption.bind (feedState fp · vs) := rfl

/-- Only `COUNT(*)` takes notice of a `NULL`. -/
def SkipsNull : AggregateState → Prop
  | .countStar _ => False
  | _ => True

theorem SkipsNull.update_none (h : SkipsNull state) : state.update fp none = .ok state := by
  cases state <;> first | rfl | exact h.elim

theorem skipsNull_addInt {sum addend : BitVec 64} (h : addInt sum addend = .ok state) :
    SkipsNull state := by
  unfold addInt at h
  split at h
  · cases h
    trivial
  · cases h

theorem skipsNull_addDecimal {sum addend : BitVec 128}
    (h : addDecimal sum addend scale = .ok state) : SkipsNull state := by
  unfold addDecimal at h
  split at h
  · cases h
  · split at h
    · cases h
      trivial
    · cases h

theorem SkipsNull.updateValue {state' : AggregateState} (h : SkipsNull state)
    (hup : state.updateValue fp v = .ok state') : SkipsNull state' := by
  cases state with
  | countStar _ => exact h.elim
  | sumInt _ _ =>
    obtain ⟨_, _, hup⟩ := bind_eq_ok.mp hup
    exact skipsNull_addInt hup
  | sumDecimal _ _ _ =>
    obtain ⟨_, _, hup⟩ := bind_eq_ok.mp hup
    exact skipsNull_addDecimal hup
  | avgDouble _ _ | avgReal _ _ =>
    obtain ⟨_, _, hup⟩ := bind_eq_ok.mp hup
    obtain ⟨_, _, hup⟩ := bind_eq_ok.mp hup
    cases hup
    trivial
  | countExpr _ | sumReal _ _ | sumDouble _ _ | min _ | max _ =>
    obtain ⟨_, _, hup⟩ := bind_eq_ok.mp hup
    cases hup
    trivial

theorem update_plain (state : AggregateState) (val : Option RelationalValue) :
    AggregateAccumulator.update fp ⟨state, none⟩ val =
      (state.update fp val >>= fun state => .ok ⟨state, none⟩) := rfl

theorem update_distinct_none (state : AggregateState) (seen : List RelationalValue) :
    AggregateAccumulator.update fp ⟨state, some seen⟩ none = .ok ⟨state, some seen⟩ := rfl

theorem update_distinct_some (state : AggregateState) (seen : List RelationalValue)
    (v : RelationalValue) : AggregateAccumulator.update fp ⟨state, some seen⟩ (some v) =
      if seen.contains (groupingValue v) then .ok ⟨state, some seen⟩
      else state.updateValue fp v >>= fun state =>
        .ok ⟨state, some (groupingValue v :: seen)⟩ := rfl

theorem updateAll_plain : ∀ {vals : List (Option RelationalValue)} {state : AggregateState},
    SkipsNull state →
    ((AggregateAccumulator.updateAll fp ⟨state, none⟩ vals).toOption.map (·.state)) =
      feedState fp state vals.reduceOption
  | [], state, _ => rfl
  | none :: vals, state, h => by
    rw [AggregateAccumulator.updateAll, update_plain, h.update_none,
      reduceOption_cons_of_none]
    exact updateAll_plain h
  | some v :: vals, state, h => by
    rw [AggregateAccumulator.updateAll, update_plain, reduceOption_cons_of_some,
      feedState_cons, AggregateState.update]
    cases hup : state.updateValue fp v with
    | error e => rfl
    | ok state' => exact updateAll_plain (h.updateValue fp hup)

/-- Under `DISTINCT` the state sees the first of each value. -/
theorem updateAll_distinct : ∀ {vals : List (Option RelationalValue)} {state : AggregateState}
    {seen : List RelationalValue}, (∀ v, some v ∈ vals → ExactNumber scale v) →
    ((AggregateAccumulator.updateAll fp ⟨state, some seen⟩ vals).toOption.map (·.state)) =
      feedState fp state (firsts seen vals.reduceOption)
  | [], state, _, _ => rfl
  | none :: vals, state, seen, h => by
    rw [AggregateAccumulator.updateAll, update_distinct_none, reduceOption_cons_of_none]
    exact updateAll_distinct fun v hv => h v (mem_cons_of_mem _ hv)
  | some v :: vals, state, seen, h => by
    have hvals : ∀ w, some w ∈ vals → ExactNumber scale w :=
      fun w hw => h w (mem_cons_of_mem _ hw)
    rw [AggregateAccumulator.updateAll, update_distinct_some,
      (h v (mem_cons_self ..)).groupingValue_eq, reduceOption_cons_of_some, firsts]
    by_cases hseen : seen.contains v = true
    · rw [if_pos hseen, if_pos hseen]
      exact updateAll_distinct hvals
    · rw [if_neg hseen, if_neg hseen, feedState_cons]
      cases hup : state.updateValue fp v with
      | error e => rfl
      | ok state' => exact updateAll_distinct hvals

/-! ## Functions that do not depend on the order -/

theorem increment_eq (count : Nat) (detail : String) : (Aggregate.increment count detail).toOption =
    if count + 1 ≤ u64Max then some (count + 1) else none := by
  unfold Aggregate.increment
  split <;> rfl

/-- A counter that counts every value it is fed. -/
theorem feedState_counter {mk : Nat → AggregateState} {detail : String}
    (hmk : ∀ c v, (mk c).updateValue fp v = Aggregate.increment c detail >>= fun c => .ok (mk c)) :
    ∀ (vs : List RelationalValue) {c : Nat}, c ≤ u64Max → feedState fp (mk c) vs =
      if c + vs.length ≤ u64Max then some (mk (c + vs.length)) else none
  | [], c, hc => by
    rw [length_nil, Nat.add_zero, if_pos hc]
    rfl
  | v :: vs, c, hc => by
    rw [feedState_cons, hmk, toOption_bind, increment_eq, length_cons]
    by_cases hroom : c + 1 ≤ u64Max
    · rw [if_pos hroom, show c + (vs.length + 1) = c + 1 + vs.length by omega]
      exact feedState_counter hmk vs hroom
    · rw [if_neg hroom, if_neg (by omega)]
      rfl

/-- `COUNT(*)` counts the rows. -/
theorem updateAll_countStar : ∀ (vals : List (Option RelationalValue)) {c : Nat}, c ≤ u64Max →
    ((AggregateAccumulator.updateAll fp ⟨.countStar c, none⟩ vals).toOption.map (·.state)) =
      if c + vals.length ≤ u64Max then some (.countStar (c + vals.length)) else none
  | [], c, hc => by
    rw [length_nil, Nat.add_zero, if_pos hc]
    rfl
  | val :: vals, c, hc => by
    have hup : (AggregateState.countStar c).update fp val =
        Aggregate.increment c "COUNT(*) exceeded u64 capacity" >>= fun c => .ok (.countStar c) := by
      cases val <;> rfl
    rw [AggregateAccumulator.updateAll, update_plain, hup, length_cons]
    unfold Aggregate.increment
    by_cases hroom : c + 1 ≤ u64Max
    · rw [if_pos hroom, show c + (vals.length + 1) = c + 1 + vals.length by omega]
      exact updateAll_countStar vals hroom
    · rw [if_neg hroom, if_neg (by omega)]
      rfl

/-- A sum of floating-point numbers takes no exact number at all. -/
theorem feedState_refused (h : ∀ v ∈ vs, (state.updateValue fp v).toOption = none) :
    feedState fp state vs = if vs.isEmpty then some state else none := by
  cases vs with
  | nil => rfl
  | cons v vs =>
    rw [feedState_cons, h v (mem_cons_self ..)]
    rfl

/-! ### MIN and MAX -/

/-- The one of two exact numbers that `better` keeps. -/
def pick (wanted : Ordering) (v kept : RelationalValue) : RelationalValue :=
  if compare (numberOf v) (numberOf kept) = wanted then v else kept

theorem numberOf_pick_lt (v w : RelationalValue) :
    numberOf (pick .lt v w) = min (numberOf v) (numberOf w) := by
  unfold pick
  split_ifs with h
  · rw [compare_lt_iff_lt] at h
    omega
  · rw [compare_lt_iff_lt] at h
    omega

theorem numberOf_pick_gt (v w : RelationalValue) :
    numberOf (pick .gt v w) = max (numberOf v) (numberOf w) := by
  unfold pick
  split_ifs with h
  · rw [compare_gt_iff_gt] at h
    omega
  · rw [compare_gt_iff_gt] at h
    omega

theorem exactNumber_pick (wanted : Ordering) (hv : ExactNumber scale v)
    (hw : ExactNumber scale w) : ExactNumber scale (pick wanted v w) := by
  unfold pick
  split
  · exact hv
  · exact hw

theorem valueType_pick (wanted : Ordering)
    (h : v.valueType = w.valueType) : (pick wanted v w).valueType = w.valueType := by
  unfold pick
  split
  · exact h
  · rfl

theorem better_some (wanted : Ordering) (hv : ExactNumber scale v)
    (hw : ExactNumber scale w) : (better wanted v (some w)).toOption =
      if v.valueType = w.valueType then some (some (pick wanted v w)) else none := by
  rw [better, toOption_bind, orderValue_eq hv hw]
  split
  · rfl
  · rfl

/-- Exact numbers of one type are ranked by their number, so it does not matter which of
two is offered first; two types that meet fail in either order. -/
theorem better_comm (hpick : ∀ v w, numberOf (pick wanted v w) = op (numberOf v) (numberOf w))
    (hcomm : ∀ a b, op a b = op b a) (hleft : ∀ a b c, op a (op b c) = op b (op a c))
    {kept : Option RelationalValue} (hkept : ∀ k ∈ kept, ExactNumber scale k)
    (hv : ExactNumber scale v) (hw : ExactNumber scale w) :
    (better wanted v kept).toOption.bind (fun kept => (better wanted w kept).toOption) =
      (better wanted w kept).toOption.bind (fun kept => (better wanted v kept).toOption) := by
  cases kept with
  | none =>
    show (better wanted w (some v)).toOption = (better wanted v (some w)).toOption
    rw [better_some wanted hw hv, better_some wanted hv hw]
    by_cases htype : v.valueType = w.valueType
    · rw [if_pos htype, if_pos htype.symm]
      have hsame : pick wanted w v = pick wanted v w := by
        refine (exactNumber_pick wanted hw hv).eq_of ?_ ?_
        · rw [valueType_pick wanted htype.symm, valueType_pick wanted htype, htype]
        · rw [hpick, hpick, hcomm]
      rw [hsame]
    · rw [if_neg htype, if_neg (Ne.symm htype)]
  | some k =>
    have hk := hkept k rfl
    rw [better_some wanted hv hk, better_some wanted hw hk]
    -- a value of another type is an error, whichever comes first
    by_cases hvk : v.valueType = k.valueType <;> by_cases hwk : w.valueType = k.valueType
    · rw [if_pos hvk, if_pos hwk, Option.bind_some, Option.bind_some,
        better_some wanted hw (exactNumber_pick wanted hv hk),
        better_some wanted hv (exactNumber_pick wanted hw hk),
        valueType_pick wanted hvk, valueType_pick wanted hwk, if_pos hwk, if_pos hvk]
      have hsame : pick wanted w (pick wanted v k) = pick wanted v (pick wanted w k) := by
        refine (exactNumber_pick wanted hw (exactNumber_pick wanted hv hk)).eq_of ?_ ?_
        · rw [valueType_pick, valueType_pick, valueType_pick] <;>
            simp [valueType_pick, hvk, hwk]
        · rw [hpick, hpick, hpick, hpick, hleft]
      rw [hsame]
    · rw [if_pos hvk, if_neg hwk, Option.bind_some, Option.bind_none,
        better_some wanted hw (exactNumber_pick wanted hv hk), valueType_pick wanted hvk,
        if_neg hwk]
    · rw [if_neg hvk, if_pos hwk, Option.bind_some, Option.bind_none,
        better_some wanted hv (exactNumber_pick wanted hw hk), valueType_pick wanted hwk,
        if_neg hvk]
    · rw [if_neg hvk, if_neg hwk, Option.bind_none, Option.bind_none]

/-- The state of a `MIN` or `MAX` that has met exact numbers only. -/
theorem feedState_extreme {mk : Option RelationalValue → AggregateState}
    (hmk : ∀ kept v, (mk kept).updateValue fp v = better wanted v kept >>= fun k => .ok (mk k))
    (hpick : ∀ v w, numberOf (pick wanted v w) = op (numberOf v) (numberOf w))
    (hcomm : ∀ a b, op a b = op b a) (hleft : ∀ a b c, op a (op b c) = op b (op a c))
    {ws : List RelationalValue} (h : vs.Perm ws) (hvs : ∀ v ∈ vs, ExactNumber scale v) :
    feedState fp (mk none) vs = feedState fp (mk none) ws := by
  have hstep : ∀ kept v, ((mk kept).updateValue fp v).toOption =
      (better wanted v kept).toOption.map mk := by
    intro kept v
    rw [hmk]
    cases better wanted v kept <;> rfl
  -- the aggregate holds at most one exact number, and two turns commute
  refine foldlM_perm (P := fun state => ∃ kept, state = mk kept ∧ ∀ k ∈ kept, ExactNumber scale k)
    (Q := ExactNumber scale) ?_ ?_ h hvs ⟨none, rfl, by simp⟩
  · rintro s t v ⟨kept, rfl, hkept⟩ hv ht
    rw [hstep, Option.map_eq_some_iff] at ht
    obtain ⟨k, hk, rfl⟩ := ht
    refine ⟨k, rfl, ?_⟩
    cases kept with
    | none =>
      obtain rfl : some v = k := Option.some.inj hk
      intro u hu
      obtain rfl : v = u := Option.some.inj hu
      exact hv
    | some w =>
      rw [better_some wanted hv (hkept w rfl)] at hk
      split_ifs at hk
      cases hk
      intro u hu
      cases hu
      exact exactNumber_pick wanted hv (hkept w rfl)
  · rintro s v w ⟨kept, rfl, hkept⟩ hv hw
    have hmap : ∀ v w, ((better wanted v kept).toOption.map mk).bind
        (fun state => (state.updateValue fp w).toOption) =
        ((better wanted v kept).toOption.bind fun k => (better wanted w k).toOption).map mk := by
      intro v w
      cases (better wanted v kept).toOption with
      | none => rfl
      | some k => exact hstep k w
    rw [hstep, hstep, hmap, hmap, better_comm hpick hcomm hleft hkept hv hw]

/-! ## Sums -/

/-- The values a `SUM` over this type adds. -/
def summable : RelationalType → RelationalValue → Bool
  | .integer, .integer _ => true
  | .integer, .bigint _ => true
  | .bigint, .integer _ => true
  | .bigint, .bigint _ => true
  | .decimal scale, .decimal _ s => s == scale && scale.toNat ≤ maxDecimalPrecision
  | _, _ => false

/-- The range of a `SUM` over this type: 64 bits, or 38 decimal digits. -/
def sumRange : RelationalType → Int × Int
  | .integer => (-2 ^ 63, 2 ^ 63 - 1)
  | .bigint => (-2 ^ 63, 2 ^ 63 - 1)
  | .decimal _ => (-(10 ^ 38 - 1), 10 ^ 38 - 1)
  | _ => (0, 0)

theorem checkedAdd_eq {w : Nat} (a b : BitVec w) : checkedAdd a b =
    if Within (-2 ^ (w - 1)) (2 ^ (w - 1) - 1) (a.toInt + b.toInt) then
      some (BitVec.ofInt w (a.toInt + b.toInt)) else none := by
  unfold checkedAdd
  have hadd : a + b = BitVec.ofInt w (a.toInt + b.toInt) := by
    rw [BitVec.ofInt_add, BitVec.ofInt_toInt, BitVec.ofInt_toInt]
  by_cases hover : a.saddOverflow b = true
  · rw [if_pos hover, if_neg]
    unfold Within
    simp only [BitVec.saddOverflow, decide_eq_true_eq, Bool.or_eq_true] at hover
    omega
  · rw [if_neg hover, if_pos, hadd]
    unfold Within
    simp only [BitVec.saddOverflow, decide_eq_true_eq, Bool.or_eq_true] at hover
    omega

theorem addInt_eq (sum addend : BitVec 64) : (addInt sum addend).toOption =
    if Within (-2 ^ 63) (2 ^ 63 - 1) (sum.toInt + addend.toInt) then
      some (.sumInt (BitVec.ofInt 64 (sum.toInt + addend.toInt)) true) else none := by
  rw [addInt, checkedAdd_eq]
  split <;> split <;> simp_all [Except.toOption]

theorem toInt_ofInt_within {w : Nat} (hw : 0 < w) {n : Int}
    (h : Within (-2 ^ (w - 1)) (2 ^ (w - 1) - 1) n) : (BitVec.ofInt w n).toInt = n := by
  obtain ⟨hlo, hhi⟩ := h
  have hpow : (2 : Int) ^ w = 2 * 2 ^ (w - 1) := by
    rw [← Int.pow_succ', Nat.sub_add_cancel hw]
  rw [BitVec.toInt_ofInt, Int.bmod_eq_of_le]
  · push_cast
    omega
  · push_cast
    omega

theorem validateDecimal_eq (value : Int) (scale : Nat) :
    (validateDecimal value maxDecimalPrecision scale).toOption =
      if scale ≤ maxDecimalPrecision ∧ Within (-(10 ^ 38 - 1)) (10 ^ 38 - 1) value then some ()
      else none := by
  have hbound : 10 ^ maxDecimalPrecision ≤ value.natAbs ↔
      ¬Within (-(10 ^ 38 - 1)) (10 ^ 38 - 1) value := by
    unfold maxDecimalPrecision Within
    omega
  unfold validateDecimal
  rw [if_neg (by decide)]
  by_cases hscale : scale ≤ maxDecimalPrecision
  · rw [if_neg (by omega)]
    by_cases hwithin : Within (-(10 ^ 38 - 1)) (10 ^ 38 - 1) value
    · rw [if_neg (fun h => hbound.mp h hwithin), if_pos ⟨hscale, hwithin⟩]
      rfl
    · rw [if_pos (hbound.mpr hwithin), if_neg (fun h => hwithin h.2)]
      rfl
  · rw [if_pos (by omega), if_neg (fun h => hscale h.1)]
    rfl

/-- A decimal sum is right or refused. -/
theorem addDecimal_eq (sum addend : BitVec 128) (scale : UInt8) :
    (addDecimal sum addend scale).toOption =
      if scale.toNat ≤ maxDecimalPrecision ∧
          Within (-(10 ^ 38 - 1)) (10 ^ 38 - 1) (sum.toInt + addend.toInt) then
        some (.sumDecimal (BitVec.ofInt 128 (sum.toInt + addend.toInt)) scale true) else none := by
  rw [addDecimal, checkedAdd_eq]
  by_cases hfits : Within (-2 ^ (128 - 1)) (2 ^ (128 - 1) - 1) (sum.toInt + addend.toInt)
  · rw [if_pos hfits]
    dsimp only
    have hvalid :=
      validateDecimal_eq (BitVec.ofInt 128 (sum.toInt + addend.toInt)).toInt scale.toNat
    rw [toInt_ofInt_within (by decide) hfits] at hvalid ⊢
    cases hcheck : validateDecimal (sum.toInt + addend.toInt) maxDecimalPrecision scale.toNat with
    | error e =>
      rw [hcheck] at hvalid
      split at hvalid
      · cases hvalid
      · rename_i hbad
        rw [if_neg hbad]
        rfl
    | ok u =>
      rw [hcheck] at hvalid
      split at hvalid
      · rename_i hgood
        rw [if_pos hgood]
        rfl
      · cases hvalid
  · rw [if_neg hfits, if_neg]
    · rfl
    · rintro ⟨-, hlo, hhi⟩
      exact hfits ⟨by omega, by omega⟩

theorem feedState_sum {w : Nat} {mk : BitVec w → Bool → AggregateState}
    (hup : ∀ s b v, ((mk s b).updateValue fp v).toOption =
      if summable ty v = true ∧ Within (sumRange ty).1 (sumRange ty).2 (s.toInt + numberOf v) then
        some (mk (BitVec.ofInt w (s.toInt + numberOf v)) true) else none)
    (hrange : ∀ n, Within (sumRange ty).1 (sumRange ty).2 n → (BitVec.ofInt w n).toInt = n) :
    ∀ (vs : List RelationalValue) (s : BitVec w) (b : Bool), feedState fp (mk s b) vs =
      if vs.all (summable ty) then
        (sumWithin (sumRange ty).1 (sumRange ty).2 s.toInt (vs.map numberOf)).map
          fun n => mk (BitVec.ofInt w n) (b || !vs.isEmpty)
      else none
  | [], s, b => by simp [feedState, sumWithin]
  | v :: vs, s, b => by
    rw [feedState_cons, hup, map_cons, sumWithin, all_cons]
    by_cases hv : summable ty v = true
    · by_cases hwithin : Within (sumRange ty).1 (sumRange ty).2 (s.toInt + numberOf v)
      · rw [if_pos ⟨hv, hwithin⟩, Option.bind_some, feedState_sum hup hrange vs, hrange _ hwithin,
          if_pos hwithin, hv]
        simp
      · rw [if_neg (fun h => hwithin h.2), if_neg hwithin]
        simp
    · rw [if_neg (fun h => hv h.1), if_neg (by simp [hv])]
      rfl

theorem addendInt_eq (hty : ty = .integer ∨ ty = .bigint)
    (v : RelationalValue) : (addendInt v).toOption.map (·.toInt) =
      if summable ty v = true then some (numberOf v) else none := by
  rcases hty with rfl | rfl <;> cases v <;>
    simp [addendInt, summable, numberOf, Except.toOption, BitVec.toInt_signExtend_of_le]

theorem updateValue_sumInt (hty : ty = .integer ∨ ty = .bigint) (s : BitVec 64) (b : Bool)
    (v : RelationalValue) :
    ((AggregateState.sumInt s b).updateValue fp v).toOption =
      if summable ty v = true ∧ Within (sumRange ty).1 (sumRange ty).2 (s.toInt + numberOf v) then
        some (.sumInt (BitVec.ofInt 64 (s.toInt + numberOf v)) true) else none := by
  have hrange : sumRange ty = (-2 ^ 63, 2 ^ 63 - 1) := by rcases hty with rfl | rfl <;> rfl
  have hadd := addendInt_eq hty v
  rw [AggregateState.updateValue, toOption_bind, hrange]
  cases haddend : (addendInt v).toOption with
  | none =>
    rw [haddend] at hadd
    split at hadd
    · cases hadd
    · rename_i hv
      rw [if_neg (fun h => hv h.1)]
      rfl
  | some n =>
    rw [haddend] at hadd
    split at hadd
    · rename_i hv
      rw [Option.bind_some, addInt_eq, ← Option.some.inj hadd, hv]
      simp only [true_and]
    · cases hadd

theorem updateValue_sumDecimal (scale : UInt8) (s : BitVec 128) (b : Bool) (v : RelationalValue) :
    ((AggregateState.sumDecimal s scale b).updateValue fp v).toOption =
      if summable (.decimal scale) v = true ∧
          Within (sumRange (.decimal scale)).1 (sumRange (.decimal scale)).2
            (s.toInt + numberOf v) then
        some (.sumDecimal (BitVec.ofInt 128 (s.toInt + numberOf v)) scale true) else none := by
  rw [AggregateState.updateValue, toOption_bind]
  cases v with
  | decimal d t =>
    by_cases ht : t = scale
    · subst ht
      simp only [addendDecimal, if_true, summable, beq_self_eq_true, Bool.true_and,
        decide_eq_true_eq, numberOf, sumRange]
      exact addDecimal_eq s d t
    · simp [addendDecimal, ht, summable, Except.toOption]
  | _ => simp [addendDecimal, summable, Except.toOption]

theorem toInt_ofInt_sumRange {w : Nat} (hw : 0 < w) (hlo : -2 ^ (w - 1) ≤ (sumRange ty).1)
    (hhi : (sumRange ty).2 ≤ 2 ^ (w - 1) - 1) {n : Int}
    (h : Within (sumRange ty).1 (sumRange ty).2 n) : (BitVec.ofInt w n).toInt = n :=
  toInt_ofInt_within hw ⟨le_trans hlo h.1, le_trans h.2 hhi⟩

theorem zero_within_sumRange (ty : RelationalType) : Within (sumRange ty).1 (sumRange ty).2 0 := by
  cases ty <;> simp [sumRange, Within]

/-- The values a `SUM` is fed add up in every order or in none. -/
def SumSettled (ty : RelationalType) (vs : List RelationalValue) : Prop :=
  (∀ v ∈ vs, summable ty v = true) →
    Settled (sumRange ty).1 (sumRange ty).2 (vs.map numberOf)

/-- What is known of a sum as a function of what it is fed. -/
theorem orderFree_sum {f : List RelationalValue → Option β} {g : Int → Bool → β}
    (hf : ∀ vs, f vs = if vs.all (summable ty) then
      (sumWithin (sumRange ty).1 (sumRange ty).2 0 (vs.map numberOf)).map (g · vs.isEmpty)
      else none) (vs : List RelationalValue) : OrderFree f vs ↔ SumSettled ty vs := by
  by_cases hall : ∀ v ∈ vs, summable ty v = true
  · -- all can be added up: only the partial sums are left to leave the range
    have hsettled : SumSettled ty vs ↔
        Settled (sumRange ty).1 (sumRange ty).2 (vs.map numberOf) :=
      ⟨fun h => h hall, fun h _ => h⟩
    rw [hsettled, ← orderFree_sumWithin_iff (zero_within_sumRange ty), ← OrderFree.map_iff]
    have hrun : ∀ ws, ws.Perm vs → f ws =
        (sumWithin (sumRange ty).1 (sumRange ty).2 0 (ws.map numberOf)).map (g · ws.isEmpty) := by
      intro ws hws
      rw [hf, if_pos]
      rw [all_eq_true]
      intro v hv
      exact hall v (hws.mem_iff.mp hv)
    refine forall₄_congr fun ys zs hys hzs => ?_
    have hperm := hys.trans hzs.symm
    have hiff := sumWithin_eq_iff (zero_within_sumRange ty) (hperm.map numberOf)
    rw [hrun ys hys, hrun zs hzs, hperm.isEmpty_eq]
    constructor
    · intro h
      exact hiff.mpr (by simpa using congrArg Option.isSome h)
    · intro h
      exact congrArg (Option.map _) h
  · -- one cannot be added up, in any order
    have hnone : ∀ ws, ws.Perm vs → f ws = none := by
      intro ws hws
      rw [hf, if_neg]
      rw [all_eq_true]
      intro h
      exact hall fun v hv => h v (hws.mem_iff.mpr hv)
    constructor
    · intro _ h
      exact absurd h hall
    · intro _ ys zs hys hzs
      rw [hnone ys hys, hnone zs hzs]

/-! ## Every function -/

/-- What the state of an aggregate is fed, up to the order. -/
def fedValues (distinct : Bool) (vals : List (Option RelationalValue)) : List RelationalValue :=
  if distinct then vals.reduceOption.dedup else vals.reduceOption

/-- The value an aggregate comes to, none if it fails. -/
def outcome (func : AggregateFunc) (isWildcard distinct : Bool) (inputType : Option RelationalType)
    (vals : List (Option RelationalValue)) : Option (Option RelationalValue) :=
  (aggregate fp func isWildcard distinct inputType vals).toOption

theorem outcome_eq (h : AggregateState.initial func isWildcard inputType = .ok state)
    (vals : List (Option RelationalValue)) :
    outcome fp func isWildcard distinct inputType vals =
      ((AggregateAccumulator.updateAll fp (.new state distinct) vals).toOption.map (·.state)).map
        (·.value fp) := by
  rw [outcome, aggregate, h, ok_bind, toOption_bind]
  cases (AggregateAccumulator.updateAll fp (.new state distinct) vals).toOption <;> rfl

theorem outcome_error {error : AggregateError}
    (h : AggregateState.initial func isWildcard inputType = .error error)
    (vals : List (Option RelationalValue)) :
    outcome fp func isWildcard distinct inputType vals = none := by
  rw [outcome, aggregate, h]
  rfl

/-- The order of the rows matters as the order of what is fed does. -/
theorem orderFree_outcome_iff (h : AggregateState.initial func isWildcard inputType = .ok state)
    (hnull : distinct = true ∨ SkipsNull state) (hvals : ∀ v, some v ∈ vals → ExactNumber scale v) :
    OrderFree (outcome fp func isWildcard distinct inputType) vals ↔
      OrderFree (fun vs => (feedState fp state vs).map (·.value fp)) (fedValues distinct vals) := by
  cases distinct with
  | false =>
    have hskips : SkipsNull state := by
      rcases hnull with hfalse | hskips
      · cases hfalse
      · exact hskips
    rw [fedValues, if_neg (by decide), ← OrderFree.reduceOption_iff]
    refine OrderFree.congr fun ys _ => ?_
    rw [outcome_eq fp h, ← updateAll_plain fp hskips]
    rfl
  | true =>
    rw [fedValues, if_pos rfl, ← OrderFree.firsts_iff, ← OrderFree.reduceOption_iff]
    refine OrderFree.congr fun ys hys => ?_
    rw [outcome_eq fp h, ← updateAll_distinct fp fun v hv => hvals v (hys.mem_iff.mp hv)]
    rfl

theorem exactNumber_fedValues (hvals : ∀ v, some v ∈ vals → ExactNumber scale v) :
    ∀ v ∈ fedValues distinct vals, ExactNumber scale v := by
  intro v hv
  refine hvals v ?_
  have hmem : v ∈ vals.reduceOption := by
    cases distinct
    · exact hv
    · exact mem_dedup.mp hv
  simpa [List.reduceOption] using hmem

theorem orderFree_counter {mk : Nat → AggregateState} {detail : String}
    (hmk : ∀ c v, (mk c).updateValue fp v = Aggregate.increment c detail >>= fun c => .ok (mk c))
    (vs : List RelationalValue) :
    OrderFree (fun vs => (feedState fp (mk 0) vs).map (·.value fp)) vs := by
  refine OrderFree.of_perm (fun ys zs h => ?_) vs
  rw [feedState_counter fp hmk ys (Nat.zero_le _), feedState_counter fp hmk zs (Nat.zero_le _),
    h.length_eq]

theorem orderFree_count (isWildcard distinct : Bool) (inputType : Option RelationalType)
    (hvals : ∀ v, some v ∈ vals → ExactNumber scale v) :
    OrderFree (outcome fp .count isWildcard distinct inputType) vals := by
  cases isWildcard with
  | false =>
    have hinit : AggregateState.initial .count false inputType = .ok (.countExpr 0) := rfl
    rw [orderFree_outcome_iff fp hinit (.inr trivial) hvals]
    exact orderFree_counter fp (fun _ _ => rfl) _
  | true =>
    have hinit : AggregateState.initial .count true inputType = .ok (.countStar 0) := rfl
    cases distinct with
    | true =>
      rw [orderFree_outcome_iff fp hinit (.inl rfl) hvals]
      exact orderFree_counter fp (fun _ _ => rfl) _
    | false =>
      refine OrderFree.of_perm (fun ys zs h => ?_) vals
      have hrun := fun vals => updateAll_countStar fp vals (Nat.zero_le u64Max)
      rw [outcome_eq fp hinit, outcome_eq fp hinit, AggregateAccumulator.new,
        if_neg (by decide), hrun ys, hrun zs, h.length_eq]

theorem orderFree_error {error : AggregateError}
    (h : AggregateState.initial func isWildcard inputType = .error error)
    (vals : List (Option RelationalValue)) :
    OrderFree (outcome fp func isWildcard distinct inputType) vals := by
  refine OrderFree.of_perm (fun ys zs _ => ?_) vals
  rw [outcome_error fp h, outcome_error fp h]

theorem orderFree_extreme (mk : Option RelationalValue → AggregateState)
    (hinit : ∀ inputType, AggregateState.initial func false inputType = .ok (mk none))
    (hwild : ∀ inputType, ∃ error, AggregateState.initial func true inputType = .error error)
    (hskips : SkipsNull (mk none))
    (hmk : ∀ kept v, (mk kept).updateValue fp v = better wanted v kept >>= fun k => .ok (mk k))
    (hpick : ∀ v w, numberOf (pick wanted v w) = op (numberOf v) (numberOf w))
    (hcomm : ∀ a b, op a b = op b a) (hleft : ∀ a b c, op a (op b c) = op b (op a c))
    (isWildcard distinct : Bool) (inputType : Option RelationalType)
    (hvals : ∀ v, some v ∈ vals → ExactNumber scale v) :
    OrderFree (outcome fp func isWildcard distinct inputType) vals := by
  cases isWildcard with
  | true =>
    obtain ⟨error, herror⟩ := hwild inputType
    exact orderFree_error fp herror vals
  | false =>
    rw [orderFree_outcome_iff fp (hinit inputType) (.inr hskips) hvals]
    intro ys zs hys hzs
    have hexact : ∀ v ∈ ys, ExactNumber scale v :=
      fun v hv => exactNumber_fedValues hvals v (hys.mem_iff.mp hv)
    have hsame := feedState_extreme fp hmk hpick hcomm hleft (hys.trans hzs.symm) hexact
    exact congrArg (Option.map (·.value fp)) hsame

/-- A type that adds none of the values: nothing is fed, or every order fails. -/
theorem sumSettled_of_not_summable (h : ∀ v ∈ vs, summable ty v = false) : SumSettled ty vs := by
  intro hall
  cases vs with
  | nil => exact .inl (zero_within_sumRange ty)
  | cons v vs =>
    have hv := h v (mem_cons_self ..)
    rw [hall v (mem_cons_self ..)] at hv
    cases hv

section

variable (hvals : ∀ v, some v ∈ vals → ExactNumber scale v)
include hvals

theorem orderFree_refused_iff (state : AggregateState)
    (hinit : AggregateState.initial .sum false (some ty) = .ok state) (hskips : SkipsNull state)
    (hsummable : ∀ v, summable ty v = false)
    (hrefuse : ∀ v, ExactNumber scale v → (state.updateValue fp v).toOption = none) :
    OrderFree (outcome fp .sum false distinct (some ty)) vals ↔
      SumSettled ty (fedValues distinct vals) := by
  refine iff_of_true ?_ (sumSettled_of_not_summable fun v _ => hsummable v)
  rw [orderFree_outcome_iff fp hinit (.inr hskips) hvals]
  intro ys zs hys hzs
  have hrun : ∀ us, us.Perm (fedValues distinct vals) →
      feedState fp state us = if us.isEmpty then some state else none :=
    fun us hus => feedState_refused fp fun v hv =>
      hrefuse v (exactNumber_fedValues hvals v (hus.mem_iff.mp hv))
  show (feedState fp state ys).map _ = (feedState fp state zs).map _
  rw [hrun ys hys, hrun zs hzs, (hys.trans hzs.symm).isEmpty_eq]

/-- A sum in `w` bits whose range is that of its type. -/
theorem orderFree_summed_iff {w : Nat} (mk : BitVec w → Bool → AggregateState) (distinct : Bool)
    (hinit : AggregateState.initial .sum false (some ty) = .ok (mk 0 false))
    (hskips : SkipsNull (mk 0 false)) (hw : 0 < w) (hlo : -2 ^ (w - 1) ≤ (sumRange ty).1)
    (hhi : (sumRange ty).2 ≤ 2 ^ (w - 1) - 1) (hup : ∀ s b v, ((mk s b).updateValue fp v).toOption =
      if summable ty v = true ∧ Within (sumRange ty).1 (sumRange ty).2 (s.toInt + numberOf v) then
        some (mk (BitVec.ofInt w (s.toInt + numberOf v)) true) else none)
    :
    OrderFree (outcome fp .sum false distinct (some ty)) vals ↔
      SumSettled ty (fedValues distinct vals) := by
  rw [orderFree_outcome_iff fp hinit (.inr hskips) hvals]
  refine orderFree_sum (g := fun n empty => (mk (BitVec.ofInt w n) (!empty)).value fp) ?_ _
  intro vs
  rw [feedState_sum fp hup (fun n hn => toInt_ofInt_sumRange hw hlo hhi hn),
    BitVec.ofNat_eq_ofNat, BitVec.toInt_zero]
  split
  · rw [Option.map_map]
    rfl
  · rfl

theorem orderFree_sum_iff (distinct : Bool) (ty : RelationalType) :
    OrderFree (outcome fp .sum false distinct (some ty)) vals ↔
      SumSettled ty (fedValues distinct vals) := by
  cases ty with
  | integer =>
    exact orderFree_summed_iff fp hvals .sumInt distinct rfl trivial (by decide) (by decide)
      (by decide) (updateValue_sumInt fp (.inl rfl))
  | bigint =>
    exact orderFree_summed_iff fp hvals .sumInt distinct rfl trivial (by decide) (by decide)
      (by decide) (updateValue_sumInt fp (.inr rfl))
  | decimal s =>
    have hrange : sumRange (.decimal s) = (-(10 ^ 38 - 1), 10 ^ 38 - 1) := rfl
    exact orderFree_summed_iff fp hvals (fun sum seen => .sumDecimal sum s seen) distinct rfl
      trivial (by decide) (by rw [hrange]; decide) (by rw [hrange]; decide)
      (updateValue_sumDecimal fp s)
  | real =>
    refine orderFree_refused_iff fp hvals (.sumReal 0 false) rfl trivial (fun _ => rfl) ?_
    intro v hv
    cases v <;> first | rfl | exact hv.elim
  | double =>
    refine orderFree_refused_iff fp hvals (.sumDouble 0 false) rfl trivial (fun _ => rfl) ?_
    intro v hv
    cases v <;> first | rfl | exact hv.elim
  | _ =>
    exact iff_of_true (orderFree_error fp rfl vals) (sumSettled_of_not_summable fun v _ => rfl)

end

/-- **Aggregates and the order of their rows.** Over exact numbers and `NULL`s, `COUNT`, `MIN`
and `MAX` come to the same in every order of the rows, or fail in every order. `SUM` does
exactly when the values it is fed settle it. -/
theorem aggregates_order_free_iff (func : AggregateFunc) (isWildcard distinct : Bool)
    (inputType : Option RelationalType) (vals : List (Option RelationalValue))
    (hfunc : func ≠ .avg) (hvals : ∀ v, some v ∈ vals → ExactNumber scale v) :
    OrderFree (outcome fp func isWildcard distinct inputType) vals ↔
      (func = .sum → isWildcard = false → ∀ ty, inputType = some ty →
        SumSettled ty (fedValues distinct vals)) := by
  cases func with
  | avg => exact absurd rfl hfunc
  | count =>
    exact iff_of_true (orderFree_count fp isWildcard distinct inputType hvals)
      (fun h => by cases h)
  | min =>
    refine iff_of_true ?_ (fun h => by cases h)
    exact orderFree_extreme fp .min (fun _ => rfl) (fun _ => ⟨_, rfl⟩) trivial (fun _ _ => rfl)
      numberOf_pick_lt min_comm min_left_comm isWildcard distinct inputType hvals
  | max =>
    refine iff_of_true ?_ (fun h => by cases h)
    exact orderFree_extreme fp .max (fun _ => rfl) (fun _ => ⟨_, rfl⟩) trivial (fun _ _ => rfl)
      numberOf_pick_gt max_comm max_left_comm isWildcard distinct inputType hvals
  | sum =>
    cases isWildcard with
    | true =>
      exact iff_of_true (orderFree_error fp rfl vals) (fun _ h => by cases h)
    | false =>
      cases inputType with
      | none => exact iff_of_true (orderFree_error fp rfl vals) (fun _ _ _ h => by cases h)
      | some ty =>
        rw [orderFree_sum_iff fp hvals distinct ty]
        constructor
        · intro h _ _ ty' hty
          cases hty
          exact h
        · intro h
          exact h rfl rfl ty rfl

end Runs

/-- Arithmetic that is never used: the sums below are of integers. -/
def noFloats : FloatOps where
  add32 a _ := a
  add64 a _ := a
  div32 a _ := a
  div64 a _ := a
  ofInt _ := 0
  count32 _ := 0
  count64 _ := 0

/-- The largest BIGINT, 1 and -1: their sum is in range, and fails when 1 comes before -1. -/
theorem sum_depends_on_order :
    ¬OrderFree (outcome noFloats .sum false false (some .bigint))
      [some (.bigint (BitVec.intMax 64)), some (.bigint 1), some (.bigint (-1))] := by
  intro h
  have hsame := h
    [some (.bigint (BitVec.intMax 64)), some (.bigint 1), some (.bigint (-1))]
    [some (.bigint (BitVec.intMax 64)), some (.bigint (-1)), some (.bigint 1)] (.refl _)
    ((List.Perm.swap _ _ _).cons _)
  revert hsame
  decide +kernel

theorem small_sum_order_free :
    OrderFree (outcome noFloats .sum false true (some .bigint))
      [some (.bigint 5), none, some (.bigint (-3)), some (.bigint 5)] := by
  have hvals : ∀ v, some v ∈ [some (RelationalValue.bigint 5), none, some (.bigint (-3)),
      some (.bigint 5)] → ExactNumber 0 v := by
    intro v hv
    simp only [mem_cons, Option.some.injEq, reduceCtorEq, not_mem_nil, or_false,
      false_or] at hv
    rcases hv with rfl | rfl | rfl <;> trivial
  refine (aggregates_order_free_iff noFloats .sum false true (some .bigint) _ (by decide)
    hvals).mpr ?_
  intro _ _ ty hty _
  cases hty
  exact .inl (by decide +kernel)

end RubixDb.Proof
