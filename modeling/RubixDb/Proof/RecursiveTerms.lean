import RubixDb.Proof.SetOpBounds
import RubixDb.Sql.Recursive

/-!
# What a recursive term makes of a working table

`termRows` is the term without bounds. A run that succeeds under bounds produces exactly
its rows. A term is additive if on a union of working tables it is defined where it is on
the parts and produces what it produces on them, as sets of rows up to rows that are not
distinct. Every term the binder accepts is additive if the working table is neither in the
right operand of an `EXCEPT` nor under an `EXCEPT ALL`.
-/

namespace RubixDb.Proof

open Lib SetOp Recursive List

/-! ## Rows that are the same -/

theorem Same.refl (a : Row) : Same a a := rowsNotDistinct_refl a

theorem Same.symm {a b : Row} (h : Same a b) : Same b a := by
  rw [Same, rowsNotDistinct_comm]
  exact h

theorem Same.trans (a b c : Row) (hab : Same a b) (hbc : Same b c) : Same a c :=
  (rowsNotDistinct_congr hab c).trans hbc

theorem SameTuple.refl : ∀ t : Tuple, SameTuple t t
  | [] => .nil
  | row :: t => .cons (Same.refl row) (SameTuple.refl t)

theorem SameTuple.trans : ∀ a b c : Tuple, SameTuple a b → SameTuple b c → SameTuple a c := by
  intro a b c hab
  induction hab generalizing c with
  | nil => exact id
  | @cons x y _ _ hxy _ ih =>
    intro hbc
    cases hbc with
    | @cons _ z _ c hyz hbc => exact .cons (Same.trans x y z hxy hyz) (ih c hbc)

theorem SameTuple.snoc {a b : Tuple} (h : SameTuple a b) {x y : Row} (hxy : Same x y) :
    SameTuple (a ++ [x]) (b ++ [y]) := rel_append h (.cons hxy .nil)

theorem has_iff_copies (rows : List Row) (y : Row) : Has Same rows y ↔ 0 < copies y rows :=
  countP_pos_iff.symm

/-! ## Running without bounds -/

/-- Bounds that nothing can pass. -/
def roomy : Bounds := fun left right =>
  { maxMaterializedRows := left.length + right.length, maxMaterializedBytes := usizeMax
    check := fun _ => .ok (), hasher := fun _ => 0 }

theorem length_firsts_le (rows : List Row) : (firsts rows).length ≤ rows.length := by
  have hfold : ∀ rows held : List Row,
      (rows.foldl addFirst held).length ≤ held.length + rows.length := by
    intro rows
    induction rows with
    | nil => exact fun held => Nat.le_refl _
    | cons row rows ih =>
      intro held
      have hone : (addFirst held row).length ≤ held.length + 1 := by
        unfold addFirst
        split
        · omega
        · rw [length_append, length_singleton]
      have := ih (addFirst held row)
      rw [foldl_cons, length_cons]
      omega
  have := hfold rows []
  rw [length_nil] at this
  rw [firsts]
  omega

theorem setOpRows_roomy (kind : Kind) (left right : List Row) :
    ∃ out, setOpRows (roomy left right) kind (left.map .ok) (right.map .ok) = .ok out := by
  refine setOpRows_ok (fun _ => rfl) ⟨?_, Nat.min_le_left _ _⟩
  show (Kind.held kind left right).length ≤ left.length + right.length
  have hboth := length_firsts_le (left ++ right)
  have hswap := length_firsts_le (right ++ left)
  have hright := length_firsts_le right
  rw [length_append] at hboth hswap
  cases kind <;> simp only [Kind.held, length_nil] <;> omega

section Agree

variable {env env' : Env}

theorem getSlot_agree (slots : Slots) (row : Row) :
    env.getSlot slots row = env'.getSlot slots row := by
  unfold Env.getSlot
  congr 2
  funext entry
  rw [sameKey_eq, sameKey_eq]

theorem setSlot_agree (row : Row) (slot : Slot) : ∀ slots : Slots,
    env.setSlot slots row slot = env'.setSlot slots row slot := by
  intro slots
  induction slots with
  | nil => rfl
  | cons entry slots ih => rw [Env.setSlot, Env.setSlot, sameKey_eq, sameKey_eq, ih]

theorem admitRow_eq_of_ok {held held' : Held} {count : Nat} {row : Row} {what : String}
    (h : env.admitRow held count row what = .ok held') :
    held' = { held with bytes := min usizeMax (held.bytes + rowBytes row) } := by
  unfold Env.admitRow at h
  dsimp only at h
  split_ifs at h
  exact (Except.ok.inj h).symm

theorem countStep_agree (kind : Kind) (s : Slots × Held) (row : Row) (x y : Bool × Slots × Held)
    (h : countStep env kind s row = .ok x) (h' : countStep env' kind s row = .ok y) : x = y := by
  obtain ⟨s₁, hcount, hx⟩ := bind_eq_ok.mp h
  obtain ⟨s₁', hcount', hy⟩ := bind_eq_ok.mp h'
  cases hx
  cases hy
  have hcount := of_tick_bind hcount
  have hcount' := of_tick_bind hcount'
  rw [@getSlot_agree env' env] at hcount'
  cases hslot : env.getSlot s.1 row with
  | some slot =>
    rw [hslot] at hcount hcount'
    cases hcount
    cases hcount'
    rw [setSlot_agree]
  | none =>
    rw [hslot] at hcount hcount'
    obtain ⟨_, hroom, hcount⟩ := bind_eq_ok.mp hcount
    obtain ⟨_, hroom', hcount'⟩ := bind_eq_ok.mp hcount'
    cases hcount
    cases hcount'
    rw [admitRow_eq_of_ok hroom, admitRow_eq_of_ok hroom']

theorem judge_agree {kind : Kind} {held : Held} {slots : Slots} {row : Row}
    {x y : Option Row × Slots × Held} (h : env.judge kind held slots row = .ok x)
    (h' : env'.judge kind held slots row = .ok y) : x = y := by
  unfold Env.judge at h h'
  rw [@getSlot_agree env' env] at h'
  simp only [@setSlot_agree env' env] at h'
  cases hslot : env.getSlot slots row with
  | some slot =>
    rw [hslot] at h h'
    cases kind <;> dsimp only at h h' <;> exact Except.ok.inj (h.symm.trans h')
  | none =>
    rw [hslot] at h h'
    cases kind
    case except =>
      obtain ⟨_, hroom, h⟩ := bind_eq_ok.mp h
      obtain ⟨_, hroom', h'⟩ := bind_eq_ok.mp h'
      cases h
      cases h'
      rw [admitRow_eq_of_ok hroom, admitRow_eq_of_ok hroom']
    all_goals exact Except.ok.inj (h.symm.trans h')

/-- Two limits that both let a row pass agree about it. -/
theorem passStep_agree (kind : Kind) (held : Held) (row : Row) (x y : Bool × Held)
    (h : passStep env kind held row = .ok x) (h' : passStep env' kind held row = .ok y) :
    x = y := by
  have h := of_tick_bind h
  have h' := of_tick_bind h'
  obtain ⟨r, hproc, hx⟩ := bind_eq_ok.mp h
  obtain ⟨r', hproc', hy⟩ := bind_eq_ok.mp h'
  have hr : r = r' := by
    unfold Env.process at hproc hproc'
    split at hproc
    · exact Except.ok.inj (hproc.symm.trans hproc')
    · dsimp only at hproc'
      rw [any_sameKey] at hproc hproc'
      split_ifs at hproc hproc' with hseen
      · exact Except.ok.inj (hproc.symm.trans hproc')
      · obtain ⟨_, hroom, hproc⟩ := bind_eq_ok.mp hproc
        obtain ⟨_, hroom', hproc'⟩ := bind_eq_ok.mp hproc'
        cases hproc
        cases hproc'
        rw [admitRow_eq_of_ok hroom, admitRow_eq_of_ok hroom']
    · split at hproc'
      · rename_i hnot _
        exact absurd rfl hnot
      · rename_i hnot
        exact absurd rfl hnot
      obtain ⟨j, hjudge, hproc⟩ := bind_eq_ok.mp hproc
      obtain ⟨j', hjudge', hproc'⟩ := bind_eq_ok.mp hproc'
      obtain rfl := judge_agree hjudge hjudge'
      exact Except.ok.inj (hproc.symm.trans hproc')
  subst hr
  exact Except.ok.inj (hx.symm.trans hy)

/-- Bounds decide whether there is a result, never which. -/
theorem setOpRows_agree {kind : Kind} {left right out out' : List Row}
    (h : setOpRows env kind (left.map .ok) (right.map .ok) = .ok out)
    (h' : setOpRows env' kind (left.map .ok) (right.map .ok) = .ok out') : out = out' := by
  cases hk : kind.countsRight with
  | false =>
    rw [setOpRows_concatenated hk] at h h'
    obtain ⟨_, hfeed⟩ := feed_of_remaining h
    obtain ⟨_, hfeed'⟩ := feed_of_remaining h'
    exact congrArg Prod.fst (feed_agree (passStep_agree kind) hfeed hfeed')
  | true =>
    rw [setOpRows_counted hk] at h h'
    obtain ⟨r, hcount, h⟩ := bind_eq_ok.mp h
    obtain ⟨r', hcount', h'⟩ := bind_eq_ok.mp h'
    obtain rfl := feed_agree (countStep_agree kind) hcount hcount'
    obtain ⟨_, hfeed⟩ := feed_of_remaining h
    obtain ⟨_, hfeed'⟩ := feed_of_remaining h'
    exact congrArg Prod.fst (feed_agree (passStep_agree kind) hfeed hfeed')

/-! ## DISTINCT -/

theorem distinctRows_of_room : ∀ {rows seen : List Row},
    seen.length + rows.length ≤ env.maxMaterializedRows →
    ∃ out, distinctRows env seen rows = .ok out := by
  intro rows
  induction rows with
  | nil => exact fun _ => ⟨[], rfl⟩
  | cons row rows ih =>
    intro seen hlen
    rw [length_cons] at hlen
    rw [distinctRows]
    split
    · exact ih (by omega)
    rw [if_neg (by omega)]
    obtain ⟨rest, hrest⟩ := @ih (seen ++ [row]) (by
      rw [length_append, length_singleton]
      omega)
    rw [hrest]
    exact ⟨_, rfl⟩

theorem distinctRows_agree {rows seen out out' : List Row}
    (h : distinctRows env seen rows = .ok out) (h' : distinctRows env' seen rows = .ok out') :
    out = out' := by
  induction rows generalizing seen out out' with
  | nil =>
    cases h
    cases h'
    rfl
  | cons row rows ih =>
    rw [distinctRows] at h h'
    split_ifs at h h'
    · exact ih h h'
    · obtain ⟨rest, hrest, h⟩ := bind_eq_ok.mp h
      obtain ⟨rest', hrest', h'⟩ := bind_eq_ok.mp h'
      cases h
      cases h'
      rw [ih hrest hrest']

/-- Rows the `PartialEq` calls equal are not distinct. -/
theorem same_of_rowsEqual : ∀ a b : Row, rowsEqual a b = true → Same a b := by
  have hvalue : ∀ x y : RelationalValue, x.same y = true →
      valuesNotDistinct (some x) (some y) = true := fun x y h =>
    (valuesNotDistinct_iff _ _).mpr (congrArg some ((same_iff x y).mp h).1)
  intro a b h
  rw [rowsEqual, Bool.and_eq_true, all_eq_true] at h
  rw [Same, rowsNotDistinct, Bool.and_eq_true, all_eq_true]
  refine ⟨h.1, fun p hp => ?_⟩
  have := h.2 p hp
  obtain ⟨x, y⟩ := p
  cases x <;> cases y
  · rfl
  · cases this
  · cases this
  · exact hvalue _ _ this

theorem has_distinctRows {rows seen out : List Row} (h : distinctRows env seen rows = .ok out) :
    ∀ y, (Has Same out y ∨ Has Same seen y ↔ Has Same rows y ∨ Has Same seen y) := by
  induction rows generalizing seen out with
  | nil =>
    intro y
    cases h
    exact Iff.rfl
  | cons row rows ih =>
    intro y
    have hcons : ∀ l : List Row, Has Same (row :: l) y ↔ Same y row ∨ Has Same l y := by
      intro l
      exact exists_mem_cons_iff _ _ _
    rw [distinctRows] at h
    rw [hcons]
    split_ifs at h with hseen
    · -- a row equal to this one was seen
      rw [ih h y]
      obtain ⟨s, hs, heq⟩ := any_eq_true.mp hseen
      have hrow : Same y row → Has Same seen y := fun hy =>
        ⟨s, hs, Same.trans y row s hy (Same.symm (same_of_rowsEqual s row heq))⟩
      tauto
    · obtain ⟨rest, hrest, h⟩ := bind_eq_ok.mp h
      cases h
      have hnext := ih hrest y
      have hsnoc : Has Same (seen ++ [row]) y ↔ Has Same seen y ∨ Same y row := by
        simp only [Has, mem_append, mem_singleton, or_and_right, exists_or, exists_eq_left]
      rw [hcons]
      tauto

end Agree

/-! ## Terms without bounds -/

/-- The rows of a term when nothing bounds it. -/
def termRows (term : BoundSelect) (working : List Row) : Except ExecError (List Row) :=
  term.rows roomy working

theorem blockRows_of_run {env : Env} {b : Block} {working out : List Row}
    (h : b.rows (fun _ _ => env) working = .ok out) : b.rows roomy working = .ok out := by
  obtain ⟨firsts, hfirsts, h⟩ := bind_eq_ok.mp h
  obtain ⟨tuples, htuples, h⟩ := bind_eq_ok.mp h
  obtain ⟨rows, hrows, h⟩ := bind_eq_ok.mp h
  obtain ⟨kept, hkept, h⟩ := bind_eq_ok.mp h
  rw [Block.rows, hfirsts, ok_bind, htuples, ok_bind, hrows, ok_bind]
  have hroomy : b.dedup roomy rows = .ok kept := by
    unfold Block.dedup at hkept ⊢
    split_ifs at hkept ⊢
    · obtain ⟨kept', hkept'⟩ := @distinctRows_of_room (roomy rows []) rows [] (by simp [roomy])
      rw [distinctRows_agree hkept hkept']
      exact hkept'
    · exact hkept
  rw [hroomy]
  exact h

theorem termRows_of_run {env : Env} : ∀ {term : BoundSelect} {working out : List Row},
    term.rows (fun _ _ => env) working = .ok out → termRows term working = .ok out := by
  intro term
  induction term with
  | block b => exact fun h => blockRows_of_run h
  | setOp kind trailing widen left right ihl ihr =>
    intro working out h
    obtain ⟨l, hl, h⟩ := bind_eq_ok.mp h
    obtain ⟨l₀, hl₀, hl⟩ := bind_eq_ok.mp hl
    obtain ⟨r, hr, h⟩ := bind_eq_ok.mp h
    obtain ⟨r₀, hr₀, hr⟩ := bind_eq_ok.mp hr
    obtain ⟨rows, hrows, h⟩ := bind_eq_ok.mp h
    obtain ⟨rows', hrows'⟩ := setOpRows_roomy kind l r
    obtain rfl := setOpRows_agree hrows hrows'
    have hleft : left.rows roomy working = .ok l₀ := ihl hl₀
    have hright : right.rows roomy working = .ok r₀ := ihr hr₀
    rw [termRows, BoundSelect.rows, hleft, ok_bind, hl, ok_bind, hright, ok_bind, hr, ok_bind,
      hrows']
    exact h

end RubixDb.Proof
