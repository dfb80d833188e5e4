import RubixDb.Proof.NotDistinct
import RubixDb.Proof.SortKeys

/-!
# IN, ANY and ALL under three-valued logic

`IN` looks its left value up in a set and keeps two flags, `ANY` and `ALL` fold the
comparisons and stop at a decisive one. Over values of one type they come to the
three-valued disjunction of the comparisons, and to its negation.
-/

namespace RubixDb.Proof

open Lib SetOp Compare List

/-! ## Comparisons -/

variable {a b : RelationalValue} {op op' : BinaryOp} {ty : RelationalType}
    {x s : Option RelationalValue} {ts : List Tri}

/-- `NULL`, or a value of the type that is not not-a-number. -/
def Comparable (ty : RelationalType) (v : Option RelationalValue) : Prop :=
  ∀ a ∈ v, a.valueType = ty ∧ isNan a = false

theorem valueCmp_eq (ht : a.valueType = b.valueType) (ha : isNan a = false)
    (hb : isNan b = false) : valueCmp a b = .ok (a.cmp b) := by
  unfold valueCmp
  split
  · simp only [isNan] at ha hb
    simp [partialCmp, ha, hb, RelationalValue.cmp]
  · simp only [isNan] at ha hb
    simp [partialCmp, ha, hb, RelationalValue.cmp]
  · exact if_pos ht

/-- What `IN` looks up is equality. -/
theorem groupingValue_eq_iff (ht : a.valueType = b.valueType) (ha : isNan a = false)
    (hb : isNan b = false) : groupingValue a = groupingValue b ↔ a.cmp b = .eq := by
  rw [cmp_eq_iff_same ht ha hb, same_iff, and_iff_left ha]

/-- The operator that holds of the other orderings. -/
def negation : BinaryOp → Option BinaryOp
  | .eq => some .notEq
  | .notEq => some .eq
  | .lt => some .gtEq
  | .gtEq => some .lt
  | .gt => some .ltEq
  | .ltEq => some .gt
  | _ => none

theorem holds_negation (h : negation op = some op') (o : Ordering) :
    ∃ r, op'.holds o = some r ∧ op.holds o = some !r := by
  cases op <;> cases h <;> cases o <;> exact ⟨_, rfl, rfl⟩

theorem compare_negation (hx : Comparable ty x) (hs : Comparable ty s)
    (h : negation op = some op') :
    ∃ t, Compare.compare x s op' = .ok t ∧ Compare.compare x s op = .ok (triNot t) := by
  rcases x with _ | a
  · exact ⟨.unknown, rfl, rfl⟩
  rcases s with _ | b
  · exact ⟨.unknown, rfl, rfl⟩
  obtain ⟨ha, hna⟩ := hx a rfl
  obtain ⟨hb, hnb⟩ := hs b rfl
  obtain ⟨r, hr, hr'⟩ := holds_negation h (a.cmp b)
  refine ⟨.fromBool r, ?_, ?_⟩
  · simp only [Compare.compare, valueCmp_eq (ha.trans hb.symm) hna hnb, ok_bind, hr]
  · simp only [Compare.compare, valueCmp_eq (ha.trans hb.symm) hna hnb, ok_bind, hr']
    cases r <;> rfl

/-- `values_eq`, with which `CASE` and the `IN` of a list compare. -/
def valuesEq (a b : Option RelationalValue) : Tri :=
  (Compare.compare a b .eq).toOption.getD .unknown

theorem compare_eq (hx : Comparable ty x)
    (hs : Comparable ty s) : Compare.compare x s .eq = .ok (valuesEq x s) := by
  obtain ⟨t, -, ht⟩ := compare_negation hx hs (show negation .eq = some .notEq from rfl)
  rw [valuesEq, ht]
  rfl

/-! ## ANY and ALL -/

/-- The three-valued disjunction. -/
def anyTri (ts : List Tri) : Tri := ts.foldr triOr .false

theorem anyTri_eq_true : anyTri ts = .true ↔ .true ∈ ts := by
  induction ts with
  | nil => simp [anyTri]
  | cons t ts ih =>
    rw [mem_cons, ← ih, anyTri, foldr_cons, ← anyTri]
    cases t <;> cases anyTri ts <;> simp [triOr]

theorem anyTri_eq_false : anyTri ts = .false ↔ ∀ t ∈ ts, t = .false := by
  induction ts with
  | nil => simp [anyTri]
  | cons t ts ih =>
    rw [forall_mem_cons, ← ih, anyTri, foldr_cons, ← anyTri]
    cases t <;> cases anyTri ts <;> simp [triOr]

section Quantified

variable {S : List (Option RelationalValue)}
    {limits : InLimits} {set : InSet}

/-- **ANY is the disjunction** of the comparisons, behind a result that is not yet true. -/
theorem quantifiedLoop_any (hx : Comparable ty x) (hS : ∀ s ∈ S, Comparable ty s) {result : Tri}
    (hresult : result ≠ .true) :
    quantifiedLoop x .eq .true S result = .ok (triOr result (anyTri (S.map (valuesEq x)))) := by
  induction S generalizing result with
  | nil => cases result <;> rfl
  | cons s S ih =>
    rw [forall_mem_cons] at hS
    rw [quantifiedLoop, compare_eq hx hS.1, ok_bind, map_cons, anyTri, foldr_cons, ← anyTri]
    have hrest := fun r hr => @ih hS.2 r hr
    cases valuesEq x s with
    | true => cases result <;> rfl
    | false =>
      rw [if_neg (by decide), if_neg (by decide), hrest _ hresult]
      cases result <;> cases anyTri (S.map (valuesEq x)) <;> rfl
    | unknown =>
      rw [if_pos rfl, hrest _ (by decide)]
      cases result <;> cases anyTri (S.map (valuesEq x)) <;> first | rfl | exact absurd rfl hresult

/-- **ALL is the negation of ANY** with the negated operator. -/
theorem quantifiedLoop_negation (hx : Comparable ty x) (hS : ∀ s ∈ S, Comparable ty s)
    (h : negation op = some op') (r : Tri) :
    ∃ t, quantifiedLoop x op' .true S r = .ok t ∧
      quantifiedLoop x op .false S (triNot r) = .ok (triNot t) := by
  induction S generalizing r with
  | nil => exact ⟨r, rfl, rfl⟩
  | cons s S ih =>
    rw [forall_mem_cons] at hS
    obtain ⟨t, ht, ht'⟩ := compare_negation hx hS.1 h
    simp only [quantifiedLoop, ht, ht', ok_bind]
    cases t with
    | true => exact ⟨.true, rfl, rfl⟩
    | false => exact ih hS.2 r
    | unknown => exact ih hS.2 .unknown

/-! ## IN -/

/-- What `run_in_set` has of the values it has read. -/
theorem runInSet_ok {rows bytes : Nat} {start : InSet}
    (h : runInSet limits rows bytes start S = .ok set) :
    (∀ key, key ∈ set.values ↔ key ∈ start.values ∨ ∃ v, some v ∈ S ∧ groupingValue v = key) ∧
      (set.hasNull = true ↔ start.hasNull = true ∨ none ∈ S) ∧
      (set.empty = true ↔ rows + S.length = 0) := by
  induction S generalizing rows bytes start with
  | nil =>
    cases h
    simp
  | cons s S ih =>
    unfold runInSet at h
    split at h
    · cases h
    cases s with
    | none =>
      obtain ⟨hvalues, hnull, hempty⟩ := ih h
      refine ⟨fun key => by simp [hvalues key], by simp [hnull], ?_⟩
      rw [hempty, length_cons]
      omega
    | some v =>
      -- its canonical form is in the set from here on, whether or not it was before
      obtain ⟨bytes', next, hrest, hnullNext, hmem⟩ : ∃ bytes' next,
          runInSet limits (rows + 1) bytes' next S = .ok set ∧ next.hasNull = start.hasNull ∧
            ∀ key, key ∈ next.values ↔ key ∈ start.values ∨ groupingValue v = key := by
        dsimp only at h
        split at h
        · rename_i hseen
          refine ⟨_, _, h, rfl, fun key => ⟨.inl, ?_⟩⟩
          rintro (hk | rfl)
          · exact hk
          · exact contains_iff_mem.mp hseen
        · split_ifs at h
          exact ⟨_, _, h, rfl, fun key => by rw [mem_cons, or_comm, eq_comm]⟩
      obtain ⟨hvalues, hnull, hempty⟩ := ih hrest
      refine ⟨fun key => ?_, by simp [hnull, hnullNext], by rw [hempty, length_cons]; omega⟩
      simp only [hvalues key, hmem, mem_cons, Option.some.injEq, or_and_right, exists_or,
        exists_eq_left, or_assoc]

theorem valuesEq_some (ha : Comparable ty (some a)) (hb : Comparable ty (some b)) :
    valuesEq (some a) (some b) = .fromBool (a.cmp b == .eq) := by
  obtain ⟨hta, hna⟩ := ha a rfl
  obtain ⟨htb, hnb⟩ := hb b rfl
  simp only [valuesEq, Compare.compare, valueCmp_eq (hta.trans htb.symm) hna hnb, ok_bind,
    BinaryOp.holds]
  rfl

/-- **IN is the disjunction** of the comparisons with the values read. -/
theorem inTri_eq (hx : Comparable ty x) (hS : ∀ s ∈ S, Comparable ty s)
    (h : runInSet limits 0 0 ⟨[], false, true⟩ S = .ok set) :
    inTri x set = anyTri (S.map (valuesEq x)) := by
  obtain ⟨hvalues, hnull, hempty⟩ := runInSet_ok h
  unfold inTri
  split
  · rename_i he
    rw [hempty, Nat.zero_add, length_eq_zero_iff] at he
    rw [he]
    rfl
  rename_i he
  obtain ⟨s, hs⟩ : ∃ s, s ∈ S := exists_mem_of_ne_nil S fun hnil => he (by simp [hempty, hnil])
  rcases x with _ | a
  · -- every comparison is unknown
    have hall : ∀ t ∈ S.map (valuesEq none), t = .unknown := by
      intro t ht
      obtain ⟨v, -, rfl⟩ := mem_map.mp ht
      rfl
    cases hany : anyTri (S.map (valuesEq none)) with
    | unknown => rfl
    | true => cases hall _ (anyTri_eq_true.mp hany)
    | false => cases anyTri_eq_false.mp hany (valuesEq none s) (mem_map_of_mem hs)
  -- a value is found exactly if some comparison is true
  have hfound : groupingValue a ∈ set.values ↔ anyTri (S.map (valuesEq (some a))) = .true := by
    rw [hvalues, anyTri_eq_true, mem_map]
    constructor
    · rintro (hk | ⟨b, hb, hk⟩)
      · cases hk
      · refine ⟨some b, hb, ?_⟩
        have hcmp := (groupingValue_eq_iff ((hx a rfl).1.trans (hS _ hb b rfl).1.symm) (hx a rfl).2
          (hS _ hb b rfl).2).mp hk.symm
        rw [valuesEq_some hx (hS _ hb), hcmp]
        rfl
    · rintro ⟨_ | b, hb, ht⟩
      · cases ht
      · refine .inr ⟨b, hb, Eq.symm ?_⟩
        rw [valuesEq_some hx (hS _ hb)] at ht
        refine (groupingValue_eq_iff ((hx a rfl).1.trans (hS _ hb b rfl).1.symm) (hx a rfl).2
          (hS _ hb b rfl).2).mpr ?_
        cases hcmp : a.cmp b <;> rw [hcmp] at ht <;> first | rfl | cases ht
  rw [← contains_iff_mem] at hfound
  dsimp only
  split
  · rename_i ht
    exact (hfound.mp ht).symm
  rename_i ht
  rw [hfound] at ht
  split_ifs with hn
  · rw [hnull] at hn
    have hmem : none ∈ S := hn.resolve_left (by decide)
    cases hany : anyTri (S.map (valuesEq (some a))) with
    | unknown => rfl
    | true => exact absurd hany ht
    | false => cases anyTri_eq_false.mp hany (valuesEq (some a) none) (mem_map_of_mem hmem)
  · rw [hnull, not_or] at hn
    refine (anyTri_eq_false.mpr fun t htm => ?_).symm
    obtain ⟨_ | b, hb, rfl⟩ := mem_map.mp htm
    · exact absurd hb hn.2
    · have hne : valuesEq (some a) (some b) ≠ .true := fun heq =>
        ht (anyTri_eq_true.mpr (heq ▸ htm))
      rw [valuesEq_some hx (hS _ hb)] at hne ⊢
      cases hcmp : (a.cmp b == .eq) with
      | true => rw [hcmp] at hne; exact absurd rfl hne
      | false => rfl

end Quantified

/-- **IN and the quantified comparisons follow three-valued logic.** -/
theorem in_and_quantified_three_valued (ty : RelationalType) (x : Option RelationalValue)
    (S : List (Option RelationalValue)) (hx : Comparable ty x) (hS : ∀ s ∈ S, Comparable ty s) :
    (∀ limits set, runInSet limits 0 0 ⟨[], false, true⟩ S = .ok set →
      quantifiedTri x S .eq false = .ok (inTri x set) ∧
      inTri x set = anyTri (S.map (valuesEq x)) ∧
      quantifiedTri x S .notEq true = .ok (triNot (inTri x set))) ∧
    ∀ op op', negation op = some op' → ∃ t, quantifiedTri x S op' false = .ok t ∧
      quantifiedTri x S op true = .ok (triNot t) := by
  have hneg : ∀ op op', negation op = some op' → ∃ t, quantifiedTri x S op' false = .ok t ∧
      quantifiedTri x S op true = .ok (triNot t) :=
    fun op op' h => quantifiedLoop_negation hx hS h .false
  refine ⟨fun limits set hset => ?_, hneg⟩
  have hin := inTri_eq hx hS hset
  have hany : quantifiedTri x S .eq false = .ok (inTri x set) := by
    rw [hin]
    refine (quantifiedLoop_any hx hS (by decide)).trans ?_
    cases anyTri (S.map (valuesEq x)) <;> rfl
  obtain ⟨t, ht, hall⟩ := hneg .notEq .eq rfl
  rw [hany] at ht
  exact ⟨hany, hin, Except.ok.inj ht ▸ hall⟩

/-- `1 IN (2, NULL)` is unknown. -/
theorem one_in_two_or_null :
    (∃ set, runInSet ⟨10, 1000⟩ 0 0 ⟨[], false, true⟩ [some (.integer 2), none] = .ok set ∧
      inTri (some (.integer 1)) set = .unknown) ∧
    quantifiedTri (some (.integer 1)) [some (.integer 2), none] .eq false = .ok .unknown := by
  have hset : runInSet ⟨10, 1000⟩ 0 0 ⟨[], false, true⟩ [some (.integer 2), none] =
      .ok ⟨[.integer 2], true, false⟩ := by rfl
  have hin : inTri (some (.integer 1)) ⟨[.integer 2], true, false⟩ = .unknown := by rfl
  have h := (in_and_quantified_three_valued .integer (some (.integer 1)) [some (.integer 2), none]
    (by rintro _ ⟨⟩; exact ⟨rfl, rfl⟩)
    (by
      rintro s hs a rfl
      obtain rfl : a = .integer 2 := by simpa using hs
      exact ⟨rfl, rfl⟩)).1 ⟨10, 1000⟩ _ hset
  exact ⟨⟨_, hset, hin⟩, h.1⟩

end RubixDb.Proof
