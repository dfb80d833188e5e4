import RubixDb.Lib.PreorderOn
import RubixDb.Proof.KeyCodec
import RubixDb.Sql.Compare

/-!
# The order of sort keys

`compare_sort_keys` composes the items of an `ORDER BY` lexicographically, so it is a total
preorder if each item is one on the values its column takes. The one thing in the way is
not-a-number, which ties with every number: a column with it and two numbers that do not
tie is not ordered (`sort_keys_preorder_iff`).
-/

namespace RubixDb.Proof

open Lib Compare

/-! ## Values -/

variable {a b : RelationalValue} {d : Set (Option RelationalValue)}

theorem valueOrdering_eq_cmp (ha : isNan a = false) (hb : isNan b = false) :
    valueOrdering a b = a.cmp b := by
  unfold valueOrdering
  split
  · simp only [isNan] at ha hb
    simp [partialCmp, ha, hb, RelationalValue.cmp]
  · simp only [isNan] at ha hb
    simp [partialCmp, ha, hb, RelationalValue.cmp]
  · rfl

/-- Not-a-number ties with every value of its type. -/
theorem valueOrdering_nan (ht : a.valueType = b.valueType)
    (h : isNan a = true ∨ isNan b = true) : valueOrdering a b = .eq := by
  cases a <;> cases b <;> simp only [RelationalValue.valueType, reduceCtorEq] at ht
  case real.real a b => rcases h with h | h <;> simp_all [isNan, valueOrdering, partialCmp]
  case double.double a b => rcases h with h | h <;> simp_all [isNan, valueOrdering, partialCmp]
  all_goals simp [isNan] at h

/-- Values of one type are a total preorder. -/
theorem preorderOn_cmp (ty : RelationalType) :
    PreorderOn RelationalValue.cmp {v | v.valueType = ty} where
  refl a _ := by cases a <;> simp [RelationalValue.cmp]
  swap a ha b hb := by
    have ht : a.valueType = b.valueType := Eq.trans ha (Eq.symm hb)
    cases a <;> cases b <;> simp only [RelationalValue.valueType, reduceCtorEq] at ht
    all_goals
      simp only [RelationalValue.cmp]
      exact Std.OrientedCmp.eq_swap
  trans a ha b hb c hc hab hbc := by
    have ht : a.valueType = b.valueType := Eq.trans ha (Eq.symm hb)
    have ht' : b.valueType = c.valueType := Eq.trans hb (Eq.symm hc)
    cases a <;> cases b <;> simp only [RelationalValue.valueType, reduceCtorEq] at ht
    all_goals
      cases c <;> simp only [RelationalValue.valueType, reduceCtorEq] at ht'
      simp only [RelationalValue.cmp] at hab hbc ⊢
      exact Std.TransCmp.isLE_trans hab hbc

/-! ## Columns -/

/-- The values a sort key takes at one position: of one type or `NULL`. -/
structure Column (d : Set (Option RelationalValue)) : Prop where
  typed : ∃ ty : RelationalType, ∀ v, some v ∈ d → v.valueType = ty
  nonempty : d.Nonempty

/-- Not-a-number does not stand beside two numbers that do not tie. -/
def Orderable (d : Set (Option RelationalValue)) : Prop :=
  ∀ n v w, some n ∈ d → some v ∈ d → some w ∈ d → isNan n = true → isNan v = false →
    isNan w = false → v.cmp w = .eq

theorem preorderOn_valueOrdering (hcol : Column d)
    (hord : Orderable d) : PreorderOn valueOrdering {v | some v ∈ d} := by
  obtain ⟨ty, hty⟩ := hcol.typed
  by_cases hnan : ∃ n, some n ∈ d ∧ isNan n = true
  · -- everything ties
    obtain ⟨n, hn, hnan⟩ := hnan
    have hall : ∀ v w, some v ∈ d → some w ∈ d → valueOrdering v w = .eq := by
      intro v w hv hw
      cases hvn : isNan v with
      | true => exact valueOrdering_nan ((hty v hv).trans (hty w hw).symm) (.inl hvn)
      | false =>
        cases hwn : isNan w with
        | true => exact valueOrdering_nan ((hty v hv).trans (hty w hw).symm) (.inr hwn)
        | false => rw [valueOrdering_eq_cmp hvn hwn, hord n v w hn hv hw hnan hvn hwn]
    exact ⟨fun v hv => hall v v hv hv, fun v hv w hw => by rw [hall w v hw hv, hall v w hv hw]; rfl,
      fun u hu _ _ w hw _ _ => by rw [hall u w hu hw]; rfl⟩
  · have hnum : ∀ v, some v ∈ d → isNan v = false := fun v hv => by
      rw [Bool.eq_false_iff]
      exact fun h => hnan ⟨v, hv, h⟩
    refine ((preorderOn_cmp ty).mono fun v hv => hty v hv).congr fun v hv w hw => ?_
    exact valueOrdering_eq_cmp (hnum v hv) (hnum w hw)

/-- **One item orders an orderable column**, wherever it puts the `NULL`s. -/
theorem preorderOn_compareItem (item : BoundOrderByItem) (hcol : Column d)
    (hord : Orderable d) : PreorderOn (compareItem item) d := by
  have hdir : PreorderOn
      (fun a b => if item.descending then (valueOrdering a b).swap else valueOrdering a b)
      {v | some v ∈ d} := by
    cases item.descending with
    | true => exact (preorderOn_valueOrdering hcol hord).reversed
    | false => exact preorderOn_valueOrdering hcol hord
  refine ⟨?_, ?_, ?_⟩
  · rintro (_ | a) ha
    · rfl
    · exact hdir.refl a ha
  · rintro (_ | a) ha (_ | b) hb
    · rfl
    · rw [compareItem, compareItem]; split <;> rfl
    · rw [compareItem, compareItem]; split <;> rfl
    · exact hdir.swap a ha b hb
  · rintro (_ | a) ha (_ | b) hb (_ | c) hc hab hbc
    case some.some.some => exact hdir.trans a ha b hb c hc hab hbc
    all_goals
      revert hab hbc
      simp only [compareItem]
      try split
      all_goals simp

/-! ## Keys -/

/-- The keys with a value of each column. -/
def keysOver : List (Set (Option RelationalValue)) → Set Row
  | [] => {[]}
  | d :: ds => {k | ∃ a as, k = a :: as ∧ a ∈ d ∧ as ∈ keysOver ds}

theorem valueOrdering_self (v : RelationalValue) : valueOrdering v v = .eq := by
  cases h : isNan v with
  | true => exact valueOrdering_nan rfl (.inl h)
  | false => rw [valueOrdering_eq_cmp h h, (preorderOn_cmp v.valueType).refl v rfl]

theorem compareItem_self (item : BoundOrderByItem) (v : Option RelationalValue) :
    compareItem item v v = .eq := by
  cases v with
  | none => rfl
  | some v => rw [compareItem, valueOrdering_self]; split <;> rfl

theorem compareSortKeys_self : ∀ (items : List BoundOrderByItem) (k : Row),
    compareSortKeys items k k = .eq
  | [], _ => by rw [compareSortKeys]; simp
  | _ :: _, [] => by rw [compareSortKeys]; simp
  | item :: items, a :: as => by
    rw [compareSortKeys, compareItem_self, compareSortKeys_self items as]
    rfl

theorem preorderOn_compareSortKeys {items : List BoundOrderByItem}
    {ds : List (Set (Option RelationalValue))} (hlen : items.length = ds.length)
    (hcol : ∀ d ∈ ds, Column d) (hord : ∀ d ∈ ds, Orderable d) :
    PreorderOn (compareSortKeys items) (keysOver ds) := by
  induction items generalizing ds with
  | nil =>
    refine ⟨fun _ _ => rfl, fun _ _ _ _ => rfl, fun _ _ _ _ _ _ _ _ => rfl⟩
  | cons item items ih =>
    obtain _ | ⟨d, ds⟩ := ds
    · cases hlen
    rw [List.forall_mem_cons] at hcol hord
    have hpair := (preorderOn_compareItem item hcol.1 hord.1).then
      (ih (Nat.succ.inj hlen) hcol.2 hord.2)
    -- a key is its first value and the key of the other items
    refine ((hpair.comap fun k : Row => (k.headD none, k.tail)).mono ?_).congr ?_
    · rintro _ ⟨a, as, rfl, ha, has⟩
      exact ⟨ha, has⟩
    · rintro _ ⟨a, as, rfl, -, -⟩ _ ⟨b, bs, rfl, -, -⟩
      rfl

theorem keysOver_nonempty {ds : List (Set (Option RelationalValue))} (h : ∀ d ∈ ds, Column d) :
    (keysOver ds).Nonempty := by
  induction ds with
  | nil => exact ⟨[], rfl⟩
  | cons d ds ih =>
    rw [List.forall_mem_cons] at h
    obtain ⟨a, ha⟩ := h.1.nonempty
    obtain ⟨as, has⟩ := ih h.2
    exact ⟨a :: as, a, as, rfl, ha, has⟩

/-- Two numbers between which a third value can be put tie. -/
theorem orderable_of_preorderOn (item : BoundOrderByItem) (hcol : Column d)
    (h : PreorderOn (compareItem item) d) : Orderable d := by
  intro n v w hn hv hw hnan hvn hwn
  obtain ⟨ty, hty⟩ := hcol.typed
  have htie : ∀ u, some u ∈ d → compareItem item (some u) (some n) = .eq ∧
      compareItem item (some n) (some u) = .eq := by
    intro u hu
    have htype := (hty u hu).trans (hty n hn).symm
    rw [compareItem, compareItem, valueOrdering_nan htype (.inr hnan),
      valueOrdering_nan htype.symm (.inl hnan)]
    split <;> exact ⟨rfl, rfl⟩
  have hle : ∀ u u', some u ∈ d → some u' ∈ d → (compareItem item (some u) (some u')).isLE := by
    intro u u' hu hu'
    exact h.trans _ hu _ hn _ hu' (by rw [(htie u hu).1]; rfl) (by rw [(htie u' hu').2]; rfl)
  have heq := h.eq_of_isLE hv hw (hle v w hv hw) (hle w v hw hv)
  rw [compareItem, valueOrdering_eq_cmp hvn hwn] at heq
  split at heq
  · exact Ordering.swap_eq_eq.mp heq
  · exact heq

/-- **Sort keys are totally preordered exactly if every column is orderable.** -/
theorem sort_keys_preorder_iff (items : List BoundOrderByItem)
    (ds : List (Set (Option RelationalValue))) (hlen : items.length = ds.length)
    (hcol : ∀ d ∈ ds, Column d) :
    PreorderOn (compareSortKeys items) (keysOver ds) ↔ ∀ d ∈ ds, Orderable d := by
  refine ⟨?_, preorderOn_compareSortKeys hlen hcol⟩
  induction items generalizing ds with
  | nil =>
    obtain rfl := List.eq_nil_of_length_eq_zero hlen.symm
    simp
  | cons item items ih =>
    intro h
    obtain _ | ⟨d, ds⟩ := ds
    · cases hlen
    rw [List.forall_mem_cons] at hcol ⊢
    obtain ⟨t, ht⟩ := keysOver_nonempty hcol.2
    obtain ⟨x, hx⟩ := hcol.1.nonempty
    constructor
    · -- keys that agree behind the first item
      refine orderable_of_preorderOn item hcol.1 ?_
      refine ((h.comap (· :: t)).mono fun a ha => ⟨a, t, rfl, ha, ht⟩).congr fun a _ b _ => ?_
      rw [compareSortKeys, compareSortKeys_self, Ordering.then_eq]
    · refine ih ds (Nat.succ.inj hlen) hcol.2 ?_
      refine ((h.comap (x :: ·)).mono fun as has => ⟨x, as, rfl, hx, has⟩).congr fun a _ b _ => ?_
      rw [compareSortKeys, compareItem_self]
      rfl

/-- An `INTEGER` with `NULL`s, and descending behind it the `DOUBLE`s 1 and 2. -/
theorem sort_keys_preorder_iff_two_items :
    PreorderOn (compareSortKeys [⟨false, .last⟩, ⟨true, .first⟩])
      (keysOver [{none, some (.integer 1), some (.integer 2)},
        {some (.double 0x3FF0000000000000#64), some (.double 0x4000000000000000#64)}]) := by
  refine (sort_keys_preorder_iff _ _ rfl ?_).mpr ?_
  · simp only [List.forall_mem_cons, List.not_mem_nil, false_implies, implies_true, and_true]
    refine ⟨⟨⟨.integer, ?_⟩, none, .inl rfl⟩, ⟨⟨.double, ?_⟩, _, .inl rfl⟩⟩
    · rintro v (h | h | h) <;> cases h <;> rfl
    · rintro v (h | h) <;> cases h <;> rfl
  · -- neither column holds not-a-number
    simp only [List.forall_mem_cons, List.not_mem_nil, false_implies, implies_true, and_true]
    constructor
    · rintro n v w (h | h | h) _ _ hnan <;> cases h <;> cases hnan
    · rintro n v w (h | h) _ _ hnan <;> cases h <;> exact absurd hnan (by decide)

/-- Ascending, 2 comes before not-a-number, not-a-number before 1, and 2 not before 1. -/
theorem nan_breaks_sort_order :
    (compareSortKeys [⟨false, .last⟩] [some (.double 0x4000000000000000#64)]
        [some (.double 0x7FF8000000000000#64)]).isLE ∧
      (compareSortKeys [⟨false, .last⟩] [some (.double 0x7FF8000000000000#64)]
        [some (.double 0x3FF0000000000000#64)]).isLE ∧
      ¬ (compareSortKeys [⟨false, .last⟩] [some (.double 0x4000000000000000#64)]
        [some (.double 0x3FF0000000000000#64)]).isLE := by
  decide +kernel

end RubixDb.Proof
