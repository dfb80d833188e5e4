import RubixDb.Proof.RecursiveTerms

/-!
# Terms that distribute over unions

A block that reads the working table once, and not on the nullable side of an outer join,
treats its rows one by one. A set operation decides about a row by whether its operands
have it, except for `EXCEPT ALL`, which counts, and `EXCEPT`, which is turned around in its
right operand. So these positions apart, a term the binder accepts is additive.
-/

namespace RubixDb.Proof

open Lib SetOp Recursive

variable {join : Join} {w wa wb : List Row} {name here : String} {n : Nat} {b : Block} {all : Bool}
    {kind : Kind} {m ma mb : Except ExecError (List Row)} {t t' : Tuple} {refs : Nat} {x : Bool}
    {term left right : BoundSelect} {trailing : Trailing} {widen : Widening}

/-- Has the rows of both, up to rows that are not distinct. -/
def UnionOf (whole a b : List Row) : Prop := ∀ y, Has Same whole y ↔ Has Same a y ∨ Has Same b y

/-- The term distributes over unions of working tables. -/
def Additive (term : BoundSelect) : Prop :=
  ∀ whole a b, UnionOf whole a b →
    IsUnion Same (termRows term whole) (termRows term a) (termRows term b)

theorem not_has_nil (y : Row) : ¬ Has Same [] y := by
  rintro ⟨_, h, _⟩
  exact List.not_mem_nil h

/-! ## Steps that do not tell the same rows apart -/

theorem extend_respects (on : Condition) (ht : SameTuple t t') {x y : Row} (h : Same x y) :
    Parallel SameTuple (on.extend t x) (on.extend t' y) := by
  have hsnoc := SameTuple.snoc ht h
  unfold Condition.extend
  rw [on.respects _ _ hsnoc]
  cases on.isTrue (t' ++ [y]) with
  | error e => exact .error e
  | ok holds =>
    cases holds with
    | false => exact .ok .nil
    | true => exact .ok (.cons hsnoc .nil)

theorem nullExtend_respects (join : Join) (ht : SameTuple t t') {ms ms' : List Tuple}
    (h : List.Forall₂ SameTuple ms ms') :
    List.Forall₂ SameTuple (join.nullExtend t ms) (join.nullExtend t' ms') := by
  have hempty : ms.isEmpty = ms'.isEmpty := by cases h <;> rfl
  unfold Join.nullExtend
  rw [hempty]
  split
  · exact .cons (SameTuple.snoc ht (Same.refl [])) .nil
  · exact h

theorem step_respects (hother : join.relation.isWorking = false) (working : List Row) (t t' : Tuple)
    (ht : SameTuple t t') : Parallel SameTuple (join.step working t) (join.step working t') := by
  have hrows : Parallel Same (join.relation.rows working t) (join.relation.rows working t') := by
    cases hrel : join.relation with
    | working =>
      rw [hrel] at hother
      cases hother
    | other source => exact source.respects t t' ht
  refine hrows.bind fun xs ys hxs => ?_
  refine (Parallel.concatM (fun x y hxy => extend_respects join.on ht hxy) hxs).bind
    fun ms ms' hms => ?_
  exact .ok (nullExtend_respects join ht hms)

theorem output_respects (b : Block) (t t' : Tuple) (ht : SameTuple t t') :
    Parallel Same (b.output t) (b.output t') := by
  unfold Block.output
  rw [b.selection.respects t t' ht]
  cases b.selection.isTrue t' with
  | error e => exact .error e
  | ok keep =>
    cases keep with
    | false => exact .ok .nil
    | true => exact b.projection.respects t t' ht

/-! ## Joins -/

theorem step_unread (hother : join.relation.isWorking = false) (w w' : List Row) :
    join.step w = join.step w' := by
  unfold Join.step
  cases hrel : join.relation with
  | working =>
    rw [hrel] at hother
    cases hother
  | other source => rfl

/-- Joins that do not read the working table, over tuples that are a union. -/
theorem runJoins_union (w wa wb : List Row) {joins : List Join}
    (hany : (joins.any fun join => join.relation.isWorking) = false) :
    ∀ {m ma mb : Except ExecError (List Tuple)}, IsUnion SameTuple m ma mb →
      IsUnion SameTuple (m >>= runJoins w joins) (ma >>= runJoins wa joins)
        (mb >>= runJoins wb joins) := by
  induction joins with
  | nil =>
    intro m ma mb h
    have hbind : ∀ (v : List Row) (x : Except ExecError (List Tuple)),
        (x >>= runJoins v []) = x := by
      intro v x
      cases x <;> rfl
    rw [hbind, hbind, hbind]
    exact h
  | cons join joins ih =>
    intro m ma mb h
    rw [List.any_cons, Bool.or_eq_false_iff] at hany
    have hbind : ∀ (v : List Row) (x : Except ExecError (List Tuple)),
        (x >>= runJoins v (join :: joins)) = x >>= concatM (join.step w) >>= runJoins v joins := by
      intro v x
      cases x with
      | error e => rfl
      | ok tuples => rw [ok_bind, ok_bind, runJoins, step_unread hany.1 v w]
    rw [hbind, hbind, hbind]
    exact ih hany.2 (h.bind_concatM SameTuple.refl SameTuple.trans (step_respects hany.1 w))

/-- A join that reads the working table, and is no `LEFT JOIN`, unites what it finds in the
parts. -/
theorem step_working (hkind : (join.kind == .left) = false)
    (hworking : join.relation.isWorking = true) (hw : UnionOf w wa wb) (t : Tuple) :
    IsUnion SameTuple (join.step w t) (join.step wa t) (join.step wb t) := by
  have hstep : ∀ v : List Row, join.step v t = (.ok v >>= concatM (join.on.extend t)) := by
    intro v
    have hrel : join.relation = .working := by
      cases hrel : join.relation with
      | working => rfl
      | other source =>
        rw [hrel] at hworking
        cases hworking
    rw [Join.step, hrel, Relation.rows, ok_bind, ok_bind]
    cases concatM (join.on.extend t) v with
    | error e => rfl
    | ok ms =>
      rw [ok_bind, Join.nullExtend, hkind]
      rfl
  rw [hstep, hstep, hstep]
  exact (IsUnion.of_lists hw).bind_concatM Same.refl SameTuple.trans
    fun x y hxy => extend_respects join.on (SameTuple.refl t) hxy

/-! ## What the binder counted -/

/-- A count of references after something was bound: it read the working table or not. -/
def Counted (reads : Bool) (refs n : Nat) : Prop :=
  (reads = false ∧ n = refs) ∨ (reads = true ∧ refs = 0 ∧ n = 1)

theorem bindRelation_counted {nullExtended : Bool} {r : Relation}
    (h : r.bind name refs nullExtended = .ok n) :
    Counted r.isWorking refs n ∧ (r.isWorking = true → nullExtended = false) := by
  cases r with
  | other source =>
    refine ⟨.inl ⟨rfl, (Except.ok.inj h).symm⟩, ?_⟩
    intro hr
    cases hr
  | working =>
    unfold Relation.bind at h
    split_ifs at h with hrefs hnull
    cases h
    exact ⟨.inr ⟨rfl, by omega, by omega⟩, fun _ => by simpa using hnull⟩

theorem Counted.or {y : Bool} {mid : Nat} (hx : Counted x refs mid) (hy : Counted y mid n) :
    Counted (x || y) refs n := by
  rcases hx with ⟨rfl, rfl⟩ | ⟨rfl, rfl, rfl⟩
  · rw [Bool.false_or]
    exact hy
  · rcases hy with ⟨rfl, rfl⟩ | ⟨_, h, _⟩
    · exact .inr ⟨rfl, rfl, rfl⟩
    · cases h

theorem bindJoins_counted : ∀ {joins : List Join} {refs n : Nat},
    bindJoins name refs joins = .ok n →
    Counted (joins.any fun join => join.relation.isWorking) refs n := by
  intro joins
  induction joins with
  | nil =>
    intro refs n h
    exact .inl ⟨rfl, (Except.ok.inj h).symm⟩
  | cons join joins ih =>
    intro refs n h
    obtain ⟨mid, hrel, h⟩ := bind_eq_ok.mp h
    exact (bindRelation_counted hrel).1.or (ih h)

theorem bindReferences_counted {term : BoundSelect} {refs n : Nat}
    (h : bindReferences name refs term = .ok n) : Counted term.readsWorkingTable refs n := by
  induction term generalizing refs n with
  | block b =>
    obtain ⟨mid, hfirst, h⟩ := bind_eq_ok.mp h
    exact (bindRelation_counted hfirst).1.or (bindJoins_counted h)
  | setOp kind trailing widen left right ihl ihr =>
    obtain ⟨mid, hleft, h⟩ := bind_eq_ok.mp h
    exact (ihl hleft).or (ihr h)

/-- After a reference nothing else reads the working table. -/
theorem Counted.unread (h : Counted x 1 n) : x = false := by
  rcases h with ⟨rfl, _⟩ | ⟨_, h, _⟩
  · rfl
  · cases h

/-! ## Blocks -/

/-- Joins of which one reads the working table, over tuples that do not depend on it. -/
theorem runJoins_working (hw : UnionOf w wa wb) {joins : List Join} {n : Nat}
    (hbind : bindJoins name 0 joins = .ok n) :
    ∀ tuples : List Tuple, IsUnion SameTuple (runJoins w joins tuples)
      (runJoins wa joins tuples) (runJoins wb joins tuples) := by
  induction joins generalizing n with
  | nil =>
    intro tuples
    exact IsUnion.refl _
  | cons join joins ih =>
    intro tuples
    obtain ⟨refs, hrel, hbind⟩ := bind_eq_ok.mp hbind
    obtain ⟨hcount, hnull⟩ := bindRelation_counted hrel
    rw [runJoins, runJoins, runJoins]
    rcases hcount with ⟨hworking, rfl⟩ | ⟨hworking, _, rfl⟩
    · -- the step is the same, and so are the tuples it makes
      rw [step_unread hworking w wb, step_unread hworking wa wb]
      cases concatM (join.step wb) tuples with
      | error e => exact IsUnion.refl _
      | ok tuples' => exact ih hbind tuples'
    · -- from here on the working table is not read again
      exact runJoins_union w wa wb (bindJoins_counted hbind).unread
        (IsUnion.of_steps fun t _ => step_working (hnull hworking) hworking hw t)

/-- The tuples over a union are those over its parts. -/
theorem tuples_union (hbind : bindReferences name 0 (.block b) = .ok n) (hw : UnionOf w wa wb) :
    IsUnion SameTuple
      (b.first.rows w [] >>= fun rows => runJoins w b.joins (rows.map fun row => [row]))
      (b.first.rows wa [] >>= fun rows => runJoins wa b.joins (rows.map fun row => [row]))
      (b.first.rows wb [] >>= fun rows => runJoins wb b.joins (rows.map fun row => [row])) := by
  obtain ⟨mid, hfirst, hjoins⟩ := bind_eq_ok.mp hbind
  have hcount := (bindRelation_counted hfirst).1
  cases hr : b.first with
  | working =>
    rw [hr] at hcount
    rcases hcount with ⟨h, _⟩ | ⟨_, _, rfl⟩
    · cases h
    -- the first relation is a join of one row with nothing
    have hsingle : ∀ v : List Row, (.ok (v.map fun row => [row]) : Except ExecError (List Tuple)) =
        (.ok v >>= concatM fun row => .ok [[row]]) := by
      intro v
      rw [ok_bind]
      induction v with
      | nil => rfl
      | cons row v ih =>
        rw [concatM, ← ih]
        rfl
    have hchain : ∀ v : List Row,
        (Relation.working.rows v [] >>= fun rows =>
          runJoins v b.joins (rows.map fun row => [row])) =
          (.ok v >>= concatM fun row => .ok [[row]]) >>= runJoins v b.joins := by
      intro v
      rw [← hsingle]
      rfl
    rw [hchain, hchain, hchain]
    refine runJoins_union w wa wb (bindJoins_counted hjoins).unread ?_
    exact (IsUnion.of_lists hw).bind_concatM Same.refl SameTuple.trans
      fun x y hxy => .ok (.cons (.cons hxy .nil) .nil)
  | other source =>
    rw [hr] at hcount
    rcases hcount with ⟨_, rfl⟩ | ⟨h, _⟩
    · simp only [Relation.rows]
      cases source.rows [] with
      | error e => exact IsUnion.refl _
      | ok rows => exact runJoins_working hw hjoins _
    · cases h

theorem dedup_total (b : Block) (rows : List Row) :
    ∃ out, b.dedup roomy rows = .ok out ∧ ∀ y, Has Same out y ↔ Has Same rows y := by
  unfold Block.dedup
  split
  · obtain ⟨out, hout⟩ := @distinctRows_of_room (roomy rows []) rows [] (by simp [roomy])
    refine ⟨out, hout, fun y => ?_⟩
    have := has_distinctRows hout y
    rwa [or_iff_left (not_has_nil y), or_iff_left (not_has_nil y)] at this
  · exact ⟨rows, rfl, fun _ => Iff.rfl⟩

theorem plain_of_checkBlock (h : checkBlock here all b = .ok ()) : b.clauses.plain = true := by
  unfold checkBlock at h
  split_ifs at h with ha hw _ ho hl
  simp [Clauses.plain, Trailing.plain, ha, hw, ho, hl]

theorem apply_plain (t : Trailing) (m : Except ExecError (List Row)) :
    (m >>= t.apply true) = m := by
  cases m <;> rfl

theorem block_additive (hbind : bindReferences name 0 (.block b) = .ok n)
    (hplain : b.clauses.plain = true) : Additive (.block b) := by
  intro w wa wb hw
  have hrows : ∀ v, termRows (.block b) v =
      (((b.first.rows v [] >>= fun rows => runJoins v b.joins (rows.map fun row => [row]))
        >>= concatM b.output) >>= b.dedup roomy) := by
    intro v
    rw [← apply_plain b.clauses.toTrailing (_ >>= b.dedup roomy), ← hplain]
    simp only [bind_assoc]
    rfl
  rw [hrows, hrows, hrows]
  exact ((tuples_union hbind hw).bind_concatM SameTuple.refl Same.trans
    (output_respects b)).bind_total (dedup_total b)

/-! ## Set operations -/

/-- A set operation without bounds on operands that may fail. -/
def combine (kind : Kind) (left right : Except ExecError (List Row)) :
    Except ExecError (List Row) := do
  let left ← left
  let right ← right
  setOpRows (roomy left right) kind (left.map .ok) (right.map .ok)

theorem combine_defined (kind : Kind) (left right : Except ExecError (List Row)) :
    (∃ out, combine kind left right = .ok out) ↔ (∃ l, left = .ok l) ∧ ∃ r, right = .ok r := by
  constructor
  · rintro ⟨out, h⟩
    obtain ⟨l, hl, h⟩ := bind_eq_ok.mp h
    obtain ⟨r, hr, _⟩ := bind_eq_ok.mp h
    exact ⟨⟨l, hl⟩, r, hr⟩
  · rintro ⟨⟨l, rfl⟩, r, rfl⟩
    exact setOpRows_roomy kind l r

/-- Whether an operator other than `EXCEPT ALL` produces a row, by whether its operands
have it. -/
def Kind.produces : Kind → Prop → Prop → Prop
  | .intersect, left, right => left ∧ right
  | .intersectAll, left, right => left ∧ right
  | .except, left, right => left ∧ ¬ right
  | _, left, right => left ∨ right

theorem has_combine (hk : kind ≠ .exceptAll) {left right : Except ExecError (List Row)}
    {out : List Row} (h : combine kind left right = .ok out) :
    ∃ l r, left = .ok l ∧ right = .ok r ∧
      ∀ y, Has Same out y ↔ Kind.produces kind (Has Same l y) (Has Same r y) := by
  obtain ⟨l, hl, h⟩ := bind_eq_ok.mp h
  obtain ⟨r, hr, h⟩ := bind_eq_ok.mp h
  refine ⟨l, r, hl, hr, fun y => ?_⟩
  have hcopies := copies_setOpRows h y
  rw [has_iff_copies, has_iff_copies, has_iff_copies, hcopies]
  cases kind with
  | unionAll | union | intersectAll =>
    simp only [Kind.copies, Kind.produces]
    omega
  | intersect =>
    simp only [Kind.copies, Kind.produces, Nat.pos_iff_ne_zero]
    rw [Ne, Nat.mul_eq_zero]
    omega
  | except =>
    simp only [Kind.copies, Kind.produces]
    split <;> omega
  | exceptAll => exact absurd rfl hk

theorem combine_left (hk : kind ≠ .exceptAll) (h : IsUnion Same m ma mb)
    (right : Except ExecError (List Row)) :
    IsUnion Same (combine kind m right) (combine kind ma right) (combine kind mb right) where
  defined := by
    rw [combine_defined, combine_defined, combine_defined, h.defined]
    tauto
  has_iff := by
    intro out outa outb hout houta houtb y
    obtain ⟨l, r, hl, hr, hhas⟩ := has_combine hk hout
    obtain ⟨la, ra, hla, hra, hhasa⟩ := has_combine hk houta
    obtain ⟨lb, rb, hlb, hrb, hhasb⟩ := has_combine hk houtb
    rw [hr] at hra hrb
    cases hra
    cases hrb
    rw [hhas, hhasa, hhasb, h.has_iff hl hla hlb y]
    cases kind <;> simp only [Kind.produces] <;> tauto

theorem combine_right (hk : kind ≠ .exceptAll) (hk' : kind ≠ .except) (h : IsUnion Same m ma mb)
    (left : Except ExecError (List Row)) :
    IsUnion Same (combine kind left m) (combine kind left ma) (combine kind left mb) where
  defined := by
    rw [combine_defined, combine_defined, combine_defined, h.defined]
    tauto
  has_iff := by
    intro out outa outb hout houta houtb y
    obtain ⟨l, r, hl, hr, hhas⟩ := has_combine hk hout
    obtain ⟨la, ra, hla, hra, hhasa⟩ := has_combine hk houta
    obtain ⟨lb, rb, hlb, hrb, hhasb⟩ := has_combine hk houtb
    rw [hl] at hla hlb
    cases hla
    cases hlb
    rw [hhas, hhasa, hhasb, h.has_iff hr hra hrb y]
    cases kind <;> simp only [Kind.produces] <;> tauto

/-! ## Terms -/

/-- A term that reads no working table gives the same rows whatever it holds. -/
theorem rows_unread (h : term.readsWorkingTable = false) (w w' : List Row) :
    termRows term w = termRows term w' := by
  induction term with
  | block b =>
    rw [BoundSelect.readsWorkingTable, Bool.or_eq_false_iff] at h
    have hjoins : ∀ joins : List Join, (joins.any fun join => join.relation.isWorking) = false →
        runJoins w joins = runJoins w' joins := by
      intro joins
      induction joins with
      | nil => exact fun _ => rfl
      | cons join joins ih =>
        intro hany
        rw [List.any_cons, Bool.or_eq_false_iff] at hany
        funext tuples
        rw [runJoins, runJoins, step_unread hany.1 w w', ih hany.2]
    have hfirst : b.first.rows w [] = b.first.rows w' [] := by
      cases hr : b.first with
      | working =>
        rw [hr] at h
        cases h.1
      | other source => rfl
    show b.rows roomy w = b.rows roomy w'
    unfold Block.rows
    rw [hfirst, hjoins b.joins h.2]
  | setOp kind trailing widen left right ihl ihr =>
    rw [BoundSelect.readsWorkingTable, Bool.or_eq_false_iff] at h
    have hl : left.rows roomy w = left.rows roomy w' := ihl h.1
    have hr : right.rows roomy w = right.rows roomy w' := ihr h.2
    show BoundSelect.rows roomy _ w = BoundSelect.rows roomy _ w'
    rw [BoundSelect.rows, BoundSelect.rows, hl, hr]

/-- The working table is neither in the right operand of an `EXCEPT` nor under an
`EXCEPT ALL`. -/
def distributes : BoundSelect → Bool
  | .block _ => true
  | .setOp kind _ _ left right =>
    (!left.readsWorkingTable || (kind != .exceptAll && distributes left)) &&
    (!right.readsWorkingTable || (kind != .exceptAll && kind != .except && distributes right))

theorem additive_of_unread (h : term.readsWorkingTable = false) : Additive term := by
  intro w wa wb _
  rw [rows_unread h w wb, rows_unread h wa wb]
  exact IsUnion.refl _

theorem widen_union (source : RowSource) (h : IsUnion Same m ma mb) :
    IsUnion Same (m >>= concatM fun row => source.rows [row])
      (ma >>= concatM fun row => source.rows [row])
      (mb >>= concatM fun row => source.rows [row]) :=
  h.bind_concatM Same.refl Same.trans fun x y hxy => source.respects [x] [y] (.cons hxy .nil)

theorem checkTerm_operands
    (hreads : (BoundSelect.setOp kind trailing widen left right).readsWorkingTable = true)
    (h : checkTerm here all (.setOp kind trailing widen left right) = .ok ()) :
    trailing.plain = true ∧ checkTerm here all left = .ok () ∧
      checkTerm here all right = .ok () := by
  rw [checkTerm, hreads, Bool.not_true, if_neg Bool.false_ne_true] at h
  split_ifs at h with htrailing
  obtain ⟨_, hleft, hright⟩ := bind_eq_ok.mp h
  rw [Bool.not_eq_true, Bool.or_eq_false_iff] at htrailing
  refine ⟨?_, hleft, hright⟩
  rw [Trailing.plain, htrailing.1, htrailing.2]
  rfl

theorem termRows_setOp (hplain : trailing.plain = true) (w : List Row) :
    termRows (.setOp kind trailing widen left right) w =
      combine kind (termRows left w >>= concatM fun row => widen.left.rows [row])
        (termRows right w >>= concatM fun row => widen.right.rows [row]) := by
  rw [← apply_plain trailing (combine _ _ _), ← hplain, termRows, BoundSelect.rows, combine]
  simp only [bind_assoc]
  rfl

/-- Where the binder accepts a term, only the two forms of `EXCEPT` can keep it from
distributing over unions. -/
theorem additive_of_distributes {term : BoundSelect} {refs n : Nat}
    (hbind : bindReferences name refs term = .ok n) (hcheck : checkTerm here all term = .ok ())
    (hdist : distributes term = true) : Additive term := by
  induction term generalizing refs n with
  | block b =>
    cases hreads : (BoundSelect.block b).readsWorkingTable with
    | false => exact additive_of_unread hreads
    | true =>
      rw [checkTerm, hreads] at hcheck
      rcases bindReferences_counted hbind with ⟨h, _⟩ | ⟨_, rfl, _⟩
      · rw [hreads] at h
        cases h
      · exact block_additive hbind (plain_of_checkBlock hcheck)
  | setOp kind trailing widen left right ihl ihr =>
    cases hreads : (BoundSelect.setOp kind trailing widen left right).readsWorkingTable with
    | false => exact additive_of_unread hreads
    | true =>
      obtain ⟨hplain, hcl, hcr⟩ := checkTerm_operands hreads hcheck
      obtain ⟨mid, hleft, hright⟩ := bind_eq_ok.mp hbind
      rw [distributes, Bool.and_eq_true] at hdist
      intro w wa wb hw
      rw [termRows_setOp hplain, termRows_setOp hplain, termRows_setOp hplain]
      -- the working table is read in one operand, and the other does not depend on it
      cases hl : left.readsWorkingTable with
      | true =>
        rcases bindReferences_counted hleft with ⟨h, _⟩ | ⟨_, _, rfl⟩
        · rw [hl] at h
          cases h
        have hr := (bindReferences_counted hright).unread
        rw [hl, Bool.not_true, Bool.false_or, Bool.and_eq_true, bne_iff_ne] at hdist
        rw [rows_unread hr w wb, rows_unread hr wa wb]
        exact combine_left hdist.1.1
          (widen_union widen.left (ihl hleft hcl hdist.1.2 w wa wb hw)) _
      | false =>
        have hr : right.readsWorkingTable = true := by
          rw [BoundSelect.readsWorkingTable, hl] at hreads
          exact hreads
        rw [hr, Bool.not_true, Bool.false_or, Bool.and_eq_true, Bool.and_eq_true, bne_iff_ne,
          bne_iff_ne] at hdist
        rw [rows_unread hl w wb, rows_unread hl wa wb]
        exact combine_right hdist.2.1.1 hdist.2.1.2
          (widen_union widen.right (ihr hright hcr hdist.2.2 w wa wb hw)) _

theorem additive_of_bindTerm (hbind : bindTerm name all term = .ok true)
    (hdist : distributes term = true) : Additive term := by
  obtain ⟨refs, hrefs, hbind⟩ := bind_eq_ok.mp hbind
  split_ifs at hbind with hzero
  · cases hbind
  · obtain ⟨_, hcheck, _⟩ := bind_eq_ok.mp hbind
    exact additive_of_distributes hrefs hcheck hdist

end RubixDb.Proof
