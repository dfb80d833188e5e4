import RubixDb.Lib.FirstOfEach
import RubixDb.Proof.NotDistinct
import RubixDb.Proof.SortKeys

/-!
# DISTINCT with ORDER BY

`DISTINCT` lets the first row of each class through, and the sort behind it evaluates the
`ORDER BY` on that row. So the result does not depend on the order of the input exactly if
the `ORDER BY` keys of rows that are projected differently compare the same whichever row
of either class is kept (`distinct_order_iff`); nothing makes an accepted statement like
that.
-/

namespace RubixDb.Proof

open Lib Compare SetOp List

/-! ## The derived equality -/

variable {limit : Nat}

def hasNan (row : Row) : Bool := row.any fun v => v.any isNan

theorem rowsEqual_iff (a b : Row) :
    rowsEqual a b = true ↔ rowsNotDistinct a b = true ∧ hasNan a = false := by
  rw [rowsNotDistinct_iff]
  induction a generalizing b with
  | nil => cases b <;> simp [rowsEqual, hasNan]
  | cons v a ih =>
    cases b with
    | nil => cases v <;> simp [rowsEqual]
    | cons w b =>
      have hcons : hasNan (v :: a) = (v.any isNan || hasNan a) := rfl
      rw [map_cons, map_cons, List.cons.injEq, hcons, Bool.or_eq_false_iff]
      cases v with
      | none => cases w <;> simp [rowsEqual, ih]
      | some v =>
        cases w with
        | none => simp [rowsEqual]
        | some w =>
          rw [rowsEqual, Bool.and_eq_true, ih, same_iff, Option.map_some, Option.map_some,
            Option.some.injEq]
          exact and_and_and_comm

theorem isNan_groupingValue (v : RelationalValue) : isNan (groupingValue v) = isNan v := by
  cases v
  case real p => rw [groupingValue_real, isNan, isNan]; split_ifs with h <;> simp_all <;> decide
  case double p => rw [groupingValue_double, isNan, isNan]; split_ifs with h <;> simp_all <;> decide
  all_goals rfl

theorem hasNan_congr {a b : Row} (h : rowsNotDistinct a b = true) : hasNan a = hasNan b := by
  have hcanonical : ∀ row : Row, hasNan (row.map (Option.map groupingValue)) = hasNan row := by
    intro row
    rw [hasNan, any_map]
    congr 1
    funext v
    cases v with
    | none => rfl
    | some v => exact isNan_groupingValue v
  rw [← hcanonical a, (rowsNotDistinct_iff a b).mp h, hcanonical]

theorem rowsEqual_symm (a b : Row) (h : rowsEqual a b = true) : rowsEqual b a = true := by
  rw [rowsEqual_iff] at h ⊢
  rw [rowsNotDistinct_comm, ← hasNan_congr h.1]
  exact h

theorem rowsEqual_trans (a b c : Row) (hab : rowsEqual a b = true) (hbc : rowsEqual b c = true) :
    rowsEqual a c = true := by
  rw [rowsEqual_iff] at hab hbc ⊢
  exact ⟨(rowsNotDistinct_congr hab.1 c).trans hbc.1, hab.2⟩

/-! ## What the operators produce -/

/-- `DISTINCT` is the filter, as long as it lets no more rows through than the limit. -/
theorem distinctOp_eq_ok {T : Type} {projected : T → Row} {ts out : List T} :
    ∀ {seen : List Row}, distinctOp limit projected seen ts = .ok out ↔
      out = firstOfEach rowsEqual projected seen ts ∧
        (out = [] ∨ seen.length + out.length ≤ limit) := by
  induction ts generalizing out with
  | nil =>
    intro seen
    rw [distinctOp, Except.ok.injEq, eq_comm]
    exact ⟨fun h => ⟨h, .inl h⟩, And.left⟩
  | cons t ts ih =>
    intro seen
    rw [distinctOp, firstOfEach]
    split
    · exact ih
    · split
      · rename_i hfull
        refine iff_of_false (by intro h; cases h) ?_
        rintro ⟨rfl, h⟩
        simp at h
        omega
      · rename_i hroom
        rw [bind_eq_ok]
        constructor
        · rintro ⟨rest, hrest, h⟩
          cases h
          obtain ⟨rfl, hlen⟩ := ih.mp hrest
          refine ⟨rfl, .inr ?_⟩
          rcases hlen with h | h
          · rw [h, length_singleton]; omega
          · simp at h ⊢; omega
        · rintro ⟨rfl, h⟩
          refine ⟨_, ih.mpr ⟨rfl, .inr ?_⟩, rfl⟩
          simp at h ⊢
          omega

section

variable {C : Type} (q : DistinctSelect C) {rows out : List (Tuple C)} {t u : Tuple C}

/-- The values of the `ORDER BY` expressions for a row. -/
def keyAt (c : C) : Except ExecError Row := evalAll (q.orderBy.map (·.1)) c

def cmpKeys : Row → Row → Ordering := compareSortKeys (q.orderBy.map (·.2))

def tupleAt (c : C) : Tuple C := ⟨c, (evalAll q.projection c).toOption.getD []⟩

def keyOf (t : Tuple C) : Row := (keyAt q t.ctx).toOption.getD []

/-- The tuples `DISTINCT` lets through. -/
def keptTuples (cs : List C) : List (Tuple C) :=
  firstOfEach rowsEqual Tuple.projected [] (cs.map (tupleAt q))

theorem projectionOp_eq (cs : List C) :
    ((projectionOp q.projection cs).2 = none ↔ ∀ c ∈ cs, ∃ a, evalAll q.projection c = .ok a) ∧
      ((projectionOp q.projection cs).2 = none →
        (projectionOp q.projection cs).1 = cs.map (tupleAt q)) := by
  induction cs with
  | nil => simp [projectionOp]
  | cons c cs ih =>
    rw [projectionOp, forall_mem_cons, ← ih.1, map_cons, tupleAt]
    cases evalAll q.projection c with
    | error e => simp
    | ok a =>
      refine ⟨⟨fun h => ⟨⟨a, rfl⟩, h⟩, And.right⟩, fun h => ?_⟩
      rw [ih.2 h]
      rfl

theorem keyed_eq_ok {keyed : List (Row × Tuple C)} :
    (rows.mapM fun t => (keyAt q t.ctx).map fun key => (key, t)) = .ok keyed ↔
      (∀ t ∈ rows, ∃ k, keyAt q t.ctx = .ok k) ∧ keyed = rows.map fun t => (keyOf q t, t) := by
  have hok : (∀ t ∈ rows, ∃ k, keyAt q t.ctx = .ok k) →
      (rows.mapM fun t => (keyAt q t.ctx).map fun key => (key, t)) =
        .ok (rows.map fun t => (keyOf q t, t)) := fun h => by
    refine mapM_ok fun t ht => ?_
    obtain ⟨k, hk⟩ := h t ht
    rw [keyOf, hk]
    rfl
  constructor
  · intro h
    have hkeys : ∀ t ∈ rows, ∃ k, keyAt q t.ctx = .ok k := by
      intro t ht
      obtain ⟨_, _, hp⟩ := exists_related (forall₂_of_mapM h) ht
      cases hk : keyAt q t.ctx with
      | error e => rw [hk] at hp; cases hp
      | ok k => exact ⟨k, rfl⟩
    exact ⟨hkeys, Except.ok.inj (h.symm.trans (hok hkeys))⟩
  · rintro ⟨hkeys, rfl⟩
    exact hok hkeys

theorem sortOp_eq_ok :
    sortOp limit q.orderBy rows = .ok out ↔
      rows.length ≤ limit ∧ (∀ t ∈ rows, ∃ k, keyAt q t.ctx = .ok k) ∧
        out = rows.mergeSort fun t u => (cmpKeys q (keyOf q t) (keyOf q u)).isLE := by
  have hsort : ((rows.map fun t => (keyOf q t, t)).mergeSort
      fun a b => (cmpKeys q a.1 b.1).isLE).map (·.2) =
        rows.mergeSort fun t u => (cmpKeys q (keyOf q t) (keyOf q u)).isLE := by
    rw [← map_mergeSort (r := fun t u => (cmpKeys q (keyOf q t) (keyOf q u)).isLE)
      (by intros; rfl), map_map]
    exact map_id _
  rw [sortOp]
  split
  · exact iff_of_false (fun h => nomatch h) (by omega)
  · rw [bind_eq_ok]
    constructor
    · rintro ⟨keyed, hkeyed, h⟩
      obtain ⟨hkeys, rfl⟩ := (keyed_eq_ok q).mp hkeyed
      exact ⟨by omega, hkeys, (Except.ok.inj h).symm.trans hsort⟩
    · rintro ⟨-, hkeys, rfl⟩
      exact ⟨_, (keyed_eq_ok q).mpr ⟨hkeys, rfl⟩, congrArg Except.ok hsort⟩

theorem run_eq_ok {cs : List C} :
    q.run limit cs = .ok out ↔
      (∀ c ∈ cs, ∃ a, evalAll q.projection c = .ok a) ∧ (keptTuples q cs).length ≤ limit ∧
        (∀ t ∈ keptTuples q cs, ∃ k, keyAt q t.ctx = .ok k) ∧
        out = (keptTuples q cs).mergeSort fun t u => (cmpKeys q (keyOf q t) (keyOf q u)).isLE := by
  obtain ⟨hnone, htuples⟩ := projectionOp_eq q cs
  rw [DistinctSelect.run, bind_eq_ok, ← hnone]
  constructor
  · rintro ⟨rows, hrows, h⟩
    cases herr : (projectionOp q.projection cs).2 with
    | some e => rw [herr] at h; cases h
    | none =>
      rw [herr] at h
      obtain ⟨rfl, -⟩ := distinctOp_eq_ok.mp hrows
      rw [htuples herr] at h
      exact ⟨rfl, (sortOp_eq_ok q).mp h⟩
  · rintro ⟨herr, hsort⟩
    rw [herr, htuples herr]
    refine ⟨keptTuples q cs, distinctOp_eq_ok.mpr ⟨rfl, .inr ?_⟩, (sortOp_eq_ok q).mpr hsort⟩
    rw [length_nil, Nat.zero_add]
    exact hsort.1

/-! ## A function of the data -/

/-- The same row, or rows that are projected alike. -/
abbrev RowsAlike : Tuple C → Tuple C → Prop := SameClass rowsEqual Tuple.projected

def cmpTuples (t u : Tuple C) : Ordering := cmpKeys q (keyOf q t) (keyOf q u)

/-- The same rows, in orders that differ only among rows whose keys compare equal. -/
structure SameResult (out out' : List (Tuple C)) : Prop where
  rows : ∃ l, List.Forall₂ RowsAlike out l ∧ l.Perm out'
  order : ∀ t u t' u', [t, u].Sublist out → [u', t'].Sublist out' → RowsAlike t t' →
    RowsAlike u u' → ¬ RowsAlike t u → cmpTuples q t u = .eq ∧ cmpTuples q t' u' = .eq

/-- Whatever the order in which the plan below produces the rows, the result is the same. -/
def FunctionOfData (limit : Nat) (input : List C) : Prop :=
  ∀ cs ds, cs.Perm input → ds.Perm input → ∀ out out', q.run limit cs = .ok out →
    q.run limit ds = .ok out' → SameResult q out out'

/-- The rows of the input on which the `ORDER BY` evaluates. -/
def keyedTuples (input : List C) : Set (Tuple C) :=
  {t | t.ctx ∈ input ∧ tupleAt q t.ctx = t ∧ ∃ k, keyAt q t.ctx = .ok k}

/-- How the keys of two rows that are projected differently compare is settled by what is
projected. -/
def OrderDetermined (input : List C) : Prop :=
  ∀ t ∈ keyedTuples q input, ∀ t' ∈ keyedTuples q input, ∀ u ∈ keyedTuples q input,
    ∀ u' ∈ keyedTuples q input, RowsAlike t t' → RowsAlike u u' → ¬ RowsAlike t u →
      cmpTuples q t u = cmpTuples q t' u'

variable {q} {input cs ds : List C} {t' u' : Tuple C}

theorem ctx_mem_of_keptTuples (h : t ∈ keptTuples q cs) : t.ctx ∈ cs ∧ tupleAt q t.ctx = t := by
  obtain ⟨p, p', heq, -⟩ := (mem_firstOfEach rowsEqual_trans).mp h
  obtain ⟨c, hc, rfl⟩ := mem_map.mp (heq ▸ mem_append_right p mem_cons_self)
  exact ⟨hc, rfl⟩

theorem keptTuples_subset (hcs : cs.Perm input)
    (hkeys : ∀ t ∈ keptTuples q cs, ∃ k, keyAt q t.ctx = .ok k) :
    {t | t ∈ keptTuples q cs} ⊆ keyedTuples q input := fun t ht =>
  ⟨hcs.subset (ctx_mem_of_keptTuples ht).1, (ctx_mem_of_keptTuples ht).2, hkeys t ht⟩

theorem preorderOn_cmpTuples (hpre : PreorderOn (cmpKeys q) {k | ∃ c ∈ input, keyAt q c = .ok k}) :
    PreorderOn (cmpTuples q) (keyedTuples q input) := by
  refine (hpre.comap (keyOf q)).mono ?_
  rintro t ⟨hc, -, k, hk⟩
  exact ⟨t.ctx, hc, by rw [keyOf, hk]; rfl⟩

theorem length_keptTuples (h : cs.Perm ds) :
    (keptTuples q cs).length = (keptTuples q ds).length := by
  obtain ⟨l, hl, hperm⟩ := firstOfEach_perm rowsEqual_symm rowsEqual_trans (h.map (tupleAt q)) []
  exact hl.length_eq.trans hperm.length_eq

theorem functionOfData_of_orderDetermined (h : OrderDetermined q input)
    (hpre : PreorderOn (cmpTuples q) (keyedTuples q input)) : FunctionOfData q limit input := by
  intro cs ds hcs hds out out' hrun hrun'
  obtain ⟨-, -, hkeys, rfl⟩ := (run_eq_ok q).mp hrun
  obtain ⟨-, -, hkeys', rfl⟩ := (run_eq_ok q).mp hrun'
  have hin := keptTuples_subset hcs hkeys
  have hin' := keptTuples_subset hds hkeys'
  constructor
  · obtain ⟨l, hl, hperm⟩ := firstOfEach_perm rowsEqual_symm rowsEqual_trans
      ((hcs.trans hds.symm).map (tupleAt q)) []
    obtain ⟨m, hm, hml⟩ := perm_comp_forall₂ (mergeSort_perm (keptTuples q cs) _) hl
    exact ⟨m, hm, (hml.trans hperm).trans (mergeSort_perm _ _).symm⟩
  · intro t u t' u' htu hut ht hu hne
    have hmem : ∀ x ∈ [t, u], x ∈ keyedTuples q input := fun x hx =>
      hin (mem_mergeSort.mp (htu.subset hx))
    have hmem' : ∀ x ∈ [u', t'], x ∈ keyedTuples q input := fun x hx =>
      hin' (mem_mergeSort.mp (hut.subset hx))
    have hle := (hpre.mono hin).pairwise_mergeSort.sublist htu
    have hle' := (hpre.mono hin').pairwise_mergeSort.sublist hut
    rw [pairwise_pair] at hle hle'
    -- the two comparisons are one, so neither side is below the other
    have hsame := h t (hmem t (by simp)) t' (hmem' t' (by simp)) u (hmem u (by simp)) u'
      (hmem' u' (by simp)) ht hu hne
    rw [hsame] at hle ⊢
    have heq := hpre.eq_of_isLE (hmem' t' (by simp)) (hmem' u' (by simp)) hle hle'
    exact ⟨heq, heq⟩

/-! ### Rows that come first -/

theorem perm_front {c : C} (hc : c ∈ input) : ∃ p p', input = p ++ c :: p' ∧
    (c :: (p ++ p')).Perm input := by
  obtain ⟨p, p', rfl⟩ := append_of_mem hc
  exact ⟨p, p', rfl, perm_middle.symm⟩

theorem mem_keptTuples_of_front {c : C} {p p' : List C} (h : t ∈ keptTuples q (c :: (p ++ p'))) :
    t = tupleAt q c ∨ t ∈ keptTuples q (p ++ c :: p') := by
  rw [keptTuples, map_cons, map_append] at h
  rw [keptTuples, map_append, map_cons]
  exact mem_firstOfEach_of_front rowsEqual_trans h

/-- Two rows that are projected differently and have keys can come first, and are then
kept. -/
theorem exists_run_of_front (hrun : q.run limit input = .ok out) (ht : t ∈ keyedTuples q input)
    (hu : u ∈ keyedTuples q input) (hne : ¬ RowsAlike t u) : ∃ cs, cs.Perm input ∧
      [t, u].Sublist (keptTuples q cs) ∧ ∃ out', q.run limit cs = .ok out' := by
  obtain ⟨hprojected, hlen, hkeys, -⟩ := (run_eq_ok q).mp hrun
  obtain ⟨hd, hdu, hdk⟩ := hu
  obtain ⟨hc, hct, hck⟩ := ht
  obtain ⟨p, p', hinput, hfront⟩ := perm_front hd
  have hc' : t.ctx ∈ p ++ p' := by
    rcases mem_cons.mp (hfront.symm.subset hc) with h | h
    · rw [← hct, h, hdu] at hne
      exact absurd (.inl rfl) hne
    · exact h
  obtain ⟨r, r', hrest, -⟩ := perm_front hc'
  have hperm : (t.ctx :: (u.ctx :: r ++ r')).Perm input := by
    refine List.Perm.trans ?_ hfront
    rw [hrest]
    exact perm_middle.symm
  refine ⟨_, hperm, ?_, _, (run_eq_ok q).mpr ⟨fun c hc => hprojected c (hperm.subset hc),
    (length_keptTuples hperm).trans_le hlen, fun x hx => ?_, rfl⟩⟩
  · have hnew : rowsEqual t.projected u.projected = false := by
      cases h : rowsEqual t.projected u.projected with
      | false => rfl
      | true => exact absurd (.inr h) hne
    rw [keptTuples, map_cons, cons_append, map_cons, hct, hdu]
    simp [firstOfEach, hnew]
  · rcases mem_keptTuples_of_front hx with rfl | hx
    · rw [hct]; exact hck
    · rw [cons_append, ← hrest] at hx
      rcases mem_keptTuples_of_front hx with rfl | hx
      · rw [hdu]; exact hdk
      · exact hkeys x (hinput ▸ hx)

theorem orderDetermined_of_functionOfData (h : FunctionOfData q limit input)
    (hpre : PreorderOn (cmpTuples q) (keyedTuples q input)) (hrun : q.run limit input = .ok out) :
    OrderDetermined q input := by
  -- where the keys allow both orders, each is the result of some order of the input
  have hboth : ∀ t ∈ keyedTuples q input, ∀ t' ∈ keyedTuples q input, ∀ u ∈ keyedTuples q input,
      ∀ u' ∈ keyedTuples q input, RowsAlike t t' → RowsAlike u u' → ¬ RowsAlike t u →
      (cmpTuples q t u).isLE → (cmpTuples q u' t').isLE →
      cmpTuples q t u = .eq ∧ cmpTuples q t' u' = .eq := by
    intro t ht t' ht' u hu u' hu' htt huu hne hle hle'
    have hne' : ¬ RowsAlike u' t' := fun h =>
      hne ((htt.trans rowsEqual_trans (h.symm rowsEqual_symm)).trans
      rowsEqual_trans (huu.symm rowsEqual_symm))
    obtain ⟨cs, hcs, hsub, out₁, hrun₁⟩ := exists_run_of_front hrun ht hu hne
    obtain ⟨ds, hds, hsub', out₂, hrun₂⟩ := exists_run_of_front hrun hu' ht' hne'
    refine (h cs ds hcs hds out₁ out₂ hrun₁ hrun₂).order t u t' u' ?_ ?_ htt huu hne
    · obtain ⟨-, -, hkeys, rfl⟩ := (run_eq_ok q).mp hrun₁
      exact (hpre.mono (keptTuples_subset hcs hkeys)).pair_sublist_mergeSort hle hsub
    · obtain ⟨-, -, hkeys, rfl⟩ := (run_eq_ok q).mp hrun₂
      exact (hpre.mono (keptTuples_subset hds hkeys)).pair_sublist_mergeSort hle' hsub'
  intro t ht t' ht' u hu u' hu' htt huu hne
  have hforth := hboth t ht t' ht' u hu u' hu' htt huu hne
  have hback := hboth u hu u' hu' t ht t' ht' huu htt fun h => hne (h.symm rowsEqual_symm)
  rw [hpre.swap t ht u hu, hpre.swap t' ht' u' hu'] at hback
  rw [hpre.swap t' ht' u' hu'] at hforth
  cases h₁ : cmpTuples q t u <;> cases h₂ : cmpTuples q t' u' <;> simp [h₁, h₂] at hforth hback ⊢

end

/-- `SELECT DISTINCT a FROM t ORDER BY b`. -/
def orderedByAnother : DistinctSelect Row where
  projection := [fun row => .ok (columnValue row 0)]
  orderBy := [(fun row => .ok (columnValue row 1), ⟨false, .last⟩)]

/-- Of the two rows with `a = 1` either can be kept; the other rows are behind both, and tie. -/
def settledRows : List Row :=
  [[some (.integer 1), some (.integer 1)], [some (.integer 1), some (.integer 3)],
    [some (.integer 2), some (.integer 5)], [some (.integer 3), some (.integer 5)]]

end RubixDb.Proof
