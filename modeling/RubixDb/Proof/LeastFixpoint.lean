import RubixDb.Proof.AdditiveTerms

/-!
# The fixpoint of a recursive CTE

The loop feeds the term only the rows that the last round added. For an additive term this
is enough: what the term makes of everything fed to it so far is in the result, and the
result stays below every set of rows that has the seed and is closed under the term. The
loop does not start on an empty seed, so that a term that produces rows from nothing is
then never run.

For other terms it is not enough. `EXCEPT` takes away in a later round what the rows of an
earlier one would have kept.
-/

namespace RubixDb.Proof

open Lib SetOp Recursive List

/-! ## Sets of rows -/

variable {a b : List Row}

/-- Every row of `rows` is in the set, up to rows that are not distinct. -/
def Within (rows set : List Row) : Prop := ∀ y, Has Same rows y → Has Same set y

/-- No two rows are the same. -/
def DistinctRows (rows : List Row) : Prop := rows.Pairwise fun a b => ¬ Same a b

/-- The set has the seed and what the term makes of the set. -/
def ClosedUnder (node : RecursiveCteNode) (set : List Row) : Prop :=
  (∃ seed, node.seed = .ok seed ∧ Within seed set) ∧
    ∃ out, termRows node.term set = .ok out ∧ Within out set

def LeastFixpoint (node : RecursiveCteNode) (rows : List Row) : Prop :=
  ClosedUnder node rows ∧ ∀ set, DistinctRows set → ClosedUnder node set → Within rows set

/-- The seed has a row, or the term makes nothing of an empty working table. -/
def Starts (node : RecursiveCteNode) : Prop :=
  node.seed ≠ .ok [] ∨ termRows node.term [] = .ok []

theorem has_append (a b : List Row) (y : Row) :
    Has Same (a ++ b) y ↔ Has Same a y ∨ Has Same b y := by
  simp only [Has, mem_append, or_and_right, exists_or]

theorem Within.refl (rows : List Row) : Within rows rows := fun _ h => h

theorem nil_of_within {rows : List Row} (h : Within rows []) : rows = [] := by
  cases rows with
  | nil => rfl
  | cons row rows => exact absurd (h row ⟨row, mem_cons_self, Same.refl row⟩) (not_has_nil row)

theorem within_append {set : List Row} : Within (a ++ b) set ↔ Within a set ∧ Within b set := by
  simp only [Within, has_append, or_imp, forall_and]

theorem Within.append_right (h : Within a b) (c : List Row) : Within a (b ++ c) :=
  fun y hy => (has_append b c y).mpr (.inl (h y hy))

theorem within_of_sublist (h : a.Sublist b) : Within a b :=
  fun _ ⟨z, hz, hyz⟩ => ⟨z, h.subset hz, hyz⟩

/-! ## Taking rows into the result -/

section Fixpoint

variable {env : Env} {limits : RecursiveLimits} {node : RecursiveCteNode} {result result' : Result}
    {working : List Row}

/-- Under `UNION` the rows are looked up in the result, and no two are the same. -/
structure Exact (result : Result) : Prop where
  seen : result.seen = result.rows
  distinct : DistinctRows result.rows

theorem exact_accept (hdistinct : node.distinct = true) {row : Row} {kept : Bool} (h : Exact result)
    (ha : accept env limits node result row = .ok (kept, result')) :
    Exact result' ∧ Has Same result'.rows row ∧
      result'.rows = result.rows ++ (if kept then [row] else []) := by
  simp only [accept, hdistinct, Bool.true_and, any_sameKey, if_true] at ha
  split_ifs at ha with hseen
  · cases ha
    obtain ⟨s, hs, hsame⟩ := any_eq_true.mp hseen
    rw [h.seen] at hs
    exact ⟨h, ⟨s, hs, hsame⟩, (append_nil _).symm⟩
  · obtain ⟨bytes, _, ha⟩ := bind_eq_ok.mp ha
    cases ha
    refine ⟨⟨?_, ?_⟩, ⟨row, mem_append.mpr (.inr (mem_singleton.mpr rfl)), Same.refl row⟩, rfl⟩
    · show result.seen ++ [row] = result.rows ++ [row]
      rw [h.seen]
    · refine pairwise_append.mpr ⟨h.distinct, pairwise_singleton _ _, ?_⟩
      intro a ha b hb hab
      rw [mem_singleton.mp hb] at hab
      rw [h.seen] at hseen
      exact hseen (any_eq_true.mpr ⟨a, ha, Same.symm hab⟩)

theorem exact_acceptAll (hdistinct : node.distinct = true) {rows next : List Row}
    {result result' : Result} (h : Exact result)
    (ha : acceptAll env limits node result rows = .ok (next, result')) :
    Exact result' ∧ result'.rows = result.rows ++ next ∧ Within rows result'.rows := by
  induction rows generalizing next result result' with
  | nil =>
    cases ha
    exact ⟨h, (append_nil _).symm, fun y hy => absurd hy (not_has_nil y)⟩
  | cons row rows ih =>
    obtain ⟨kept, mid, rest, hone, hrest, rfl⟩ := feed_cons ha
    obtain ⟨hmid, hrow, hrows⟩ := exact_accept hdistinct h hone
    obtain ⟨hexact, hall, hwithin⟩ := ih hmid hrest
    refine ⟨hexact, ?_, ?_⟩
    · rw [hall, hrows, append_assoc]
      cases kept <;> rfl
    · rintro y ⟨z, hz, hyz⟩
      rcases mem_cons.mp hz with rfl | hz
      · obtain ⟨s, hs, hsame⟩ := hrow
        rw [hall]
        exact ⟨s, mem_append.mpr (.inl hs), Same.trans y z s hyz hsame⟩
      · exact hwithin y ⟨z, hz, hyz⟩

/-! ## The loop -/

/-- `fed` has been given to the term, `working` is next. -/
structure Progress (node : RecursiveCteNode) (result : Result) (fed working : List Row) : Prop where
  exact : Exact result
  rows : result.rows = fed ++ working
  seed : ∀ seed, node.seed = .ok seed → Within seed result.rows
  /-- What the term makes of all that was given to it is in the result. -/
  closed : fed ≠ [] → ∃ out, termRows node.term fed = .ok out ∧ Within out result.rows
  least : ∀ set, ClosedUnder node set → Within result.rows set

theorem progress_step (hdistinct : node.distinct = true) (hadd : Additive node.term)
    {fed produced next : List Row} (h : Progress node result fed working)
    (hrun : node.term.rows (fun _ _ => env) working = .ok produced)
    (ha : acceptAll env limits node result produced = .ok (next, result')) :
    Progress node result' (fed ++ working) next := by
  obtain ⟨hexact, hrows, hwithin⟩ := exact_acceptAll hdistinct h.exact ha
  have hterm := termRows_of_run hrun
  refine ⟨hexact, by rw [hrows, h.rows], fun seed hseed => ?_, fun _ => ?_, ?_⟩
  · rw [hrows]
    exact (h.seed seed hseed).append_right next
  · by_cases hfed : fed = []
    · rw [hfed]
      exact ⟨produced, hterm, hwithin⟩
    · obtain ⟨out, hout, houtw⟩ := h.closed hfed
      have hunion := hadd (fed ++ working) fed working (has_append fed working)
      obtain ⟨all, hall⟩ := hunion.defined.mpr ⟨⟨out, hout⟩, produced, hterm⟩
      refine ⟨all, hall, fun y hy => ?_⟩
      rcases (hunion.has_iff hall hout hterm y).mp hy with hy | hy
      · rw [hrows]
        exact houtw.append_right next y hy
      · exact hwithin y hy
  · intro set hset
    have hbelow := h.least set hset
    obtain ⟨_, out, hout, houtw⟩ := hset
    -- the working table is part of the closed set, and so is what the term makes of it
    have hpart : UnionOf set working set := by
      intro y
      rw [h.rows, within_append] at hbelow
      exact ⟨.inr, fun hy => hy.elim (hbelow.2 y) id⟩
    have hunion := hadd set working set hpart
    have hnew : Within produced set := fun y hy =>
      houtw y ((hunion.has_iff hout hterm hout y).mpr (.inl hy))
    rw [hrows, within_append]
    refine ⟨hbelow, fun y hy => hnew y ?_⟩
    exact within_of_sublist (feed_sublist ha) y hy

theorem iterate_nil (depth : Nat) (result : Result) :
    iterate env limits node depth result [] = .ok result.rows := by
  cases depth <;> rfl

theorem iterate_reaches (hdistinct : node.distinct = true) (hadd : Additive node.term) :
    ∀ {depth : Nat} {result : Result} {fed working rows : List Row},
      Progress node result fed working → iterate env limits node depth result working = .ok rows →
      ∃ result', Progress node result' rows [] := by
  intro depth
  -- the loop ends with everything it has produced fed to the term
  have hdone : ∀ {result : Result} {fed : List Row}, Progress node result fed [] →
      Progress node result result.rows [] := by
    intro result fed h
    have hfed := h.rows
    rw [append_nil] at hfed
    rw [hfed]
    exact h
  induction depth with
  | zero =>
    intro result fed working rows h hit
    cases working with
    | nil =>
      cases hit
      exact ⟨result, hdone h⟩
    | cons row working => cases hit
  | succ depth ih =>
    intro result fed working rows h hit
    cases working with
    | nil =>
      cases hit
      exact ⟨result, hdone h⟩
    | cons row working =>
      obtain ⟨produced, hrun, hit⟩ := bind_eq_ok.mp hit
      obtain ⟨⟨next, result'⟩, ha, hit⟩ := bind_eq_ok.mp hit
      exact ih (progress_step hdistinct hadd h hrun ha) hit

theorem progress_seed (hdistinct : node.distinct = true) {seed : List Row}
    (hseed : node.seed = .ok seed)
    (ha : acceptAll env limits node {} seed = .ok (working, result)) :
    Progress node result [] working := by
  have hempty : Exact {} := ⟨rfl, List.Pairwise.nil⟩
  obtain ⟨hexact, hrows, hwithin⟩ := exact_acceptAll hdistinct hempty ha
  refine ⟨hexact, hrows, ?_, fun h => absurd rfl h, ?_⟩
  · intro seed' hseed'
    rw [hseed] at hseed'
    cases hseed'
    exact hwithin
  · rintro set ⟨⟨seed', hseed', hset⟩, _⟩ y hy
    rw [hseed] at hseed'
    cases hseed'
    rw [hrows] at hy
    exact hset y (within_of_sublist (feed_sublist ha) y hy)

theorem starts_of_closed {rows : List Row} (hrun : runFixpoint env limits node = .ok rows)
    (hclosed : ClosedUnder node rows) : Starts node := by
  obtain ⟨seed, hseed, hrun⟩ := bind_eq_ok.mp hrun
  by_cases hempty : seed = []
  · -- on an empty seed the result is empty, and the term must make nothing of it
    subst hempty
    obtain ⟨_, ha, hrun⟩ := bind_eq_ok.mp hrun
    cases ha
    dsimp only at hrun
    rw [iterate_nil] at hrun
    cases hrun
    obtain ⟨_, out, hout, hwithin⟩ := hclosed
    rw [nil_of_within hwithin] at hout
    exact .inr hout
  · exact .inl fun h => hempty (Except.ok.inj (hseed.symm.trans h))

theorem least_of_starts (hdistinct : node.distinct = true) (hadd : Additive node.term)
    {rows : List Row} (hrun : runFixpoint env limits node = .ok rows) (hstarts : Starts node) :
    DistinctRows rows ∧ LeastFixpoint node rows := by
  obtain ⟨seed, hseed, hrun⟩ := bind_eq_ok.mp hrun
  obtain ⟨⟨working, result⟩, ha, hrun⟩ := bind_eq_ok.mp hrun
  obtain ⟨result', hend⟩ := iterate_reaches hdistinct hadd (progress_seed hdistinct hseed ha) hrun
  have hrows : result'.rows = rows := by rw [hend.rows, append_nil]
  subst hrows
  refine ⟨hend.exact.distinct, ⟨⟨seed, hseed, hend.seed seed hseed⟩, ?_⟩,
    fun set _ hset => hend.least set hset⟩
  by_cases hempty : result'.rows = []
  · rcases hstarts with hne | hquiet
    · have hwithin := hend.seed seed hseed
      rw [hempty] at hwithin
      rw [nil_of_within hwithin] at hseed
      exact absurd hseed hne
    · rw [hempty]
      exact ⟨[], hquiet, Within.refl []⟩
  · exact hend.closed hempty

/-- A recursion over an additive term that comes to an end returns rows no two of which are
the same, and they are the least set that has the seed and is closed under the term, exactly
when the seed has a row or the term makes nothing of an empty working table. -/
theorem additive_recursion_least (env : Env) (limits : RecursiveLimits) (node : RecursiveCteNode)
    (hdistinct : node.distinct = true) (hadd : Additive node.term) (rows : List Row)
    (hrun : runFixpoint env limits node = .ok rows) :
    DistinctRows rows ∧ LeastFixpoint node rows ↔ Starts node :=
  ⟨fun h => starts_of_closed hrun h.2.1, least_of_starts hdistinct hadd hrun⟩

/-- So it is for every term that the binder accepts with the working table neither in the
right operand of an `EXCEPT` nor under an `EXCEPT ALL`. -/
theorem bound_recursion_least (hdistinct : node.distinct = true)
    (hbind : bindTerm node.name false node.term = .ok true) (hdist : distributes node.term = true)
    {rows : List Row} (hrun : runFixpoint env limits node = .ok rows) :
    DistinctRows rows ∧ LeastFixpoint node rows ↔ Starts node :=
  ⟨fun h => starts_of_closed hrun h.2.1,
    least_of_starts hdistinct (additive_of_bindTerm hbind hdist) hrun⟩

end Fixpoint

/-! ## A term with EXCEPT -/

def intRow (n : Nat) : Row := [some (.integer (BitVec.ofNat 32 n))]

/-- A table with fixed rows. -/
def table (rows : List Row) : RowSource where
  rows _ := .ok rows
  respects _ _ _ := .ok (forall₂_same.mpr fun a _ => Same.refl a)

/-- `SELECT x`. -/
def selectX : RowSource where
  rows tuple := .ok tuple
  respects _ _ h := .ok h

/-- `x + 1`. -/
def addOne (row : Row) : Except ExecError (List Row) :=
  match row.map (Option.map groupingValue) with
  | [some (.integer v)] =>
    if v.toInt + 1 < 2 ^ 31 then .ok [[some (.integer (v + 1))]]
    else .error (.other "arithmetic overflow")
  | _ => .ok [[none]]

/-- `SELECT x + 1`. -/
def selectNext : RowSource where
  rows tuple := concatM addOne tuple
  respects _ _ h := by
    refine Parallel.concatM (R := Same) (fun a b hab => ?_) h
    rw [addOne, addOne, (rowsNotDistinct_iff a b).mp hab]
    split
    · split
      · exact .ok (.cons (Same.refl _) .nil)
      · exact .error _
    · exact .ok (.cons (Same.refl _) .nil)

def always : Condition where
  isTrue _ := .ok true
  respects _ _ _ := rfl

/-- `SELECT ... FROM relation`. -/
def selectFrom (relation : Relation) (projection : RowSource) : BoundSelect :=
  .block { first := relation, joins := [], selection := always, projection := projection
           distinct := false, clauses := {} }

/-- `WITH RECURSIVE r(x) AS (SELECT 0 UNION (SELECT x FROM t EXCEPT SELECT x + 1 FROM r))` with
1 and 2 in `t`. -/
def exceptNode : RecursiveCteNode where
  name := "r"
  seed := .ok [intRow 0]
  term := .setOp .except {} ⟨selectX, selectX⟩
    (selectFrom (.other (table [intRow 1, intRow 2])) selectX)
    (selectFrom .working selectNext)
  distinct := true

/-- Bounds as a statement has them. -/
def statementEnv : Env where
  maxMaterializedRows := 1000
  maxMaterializedBytes := 100000
  check _ := .ok ()
  hasher _ := 0

def statementLimits : RecursiveLimits := ⟨100, 1000⟩

/-- The binder accepts the term. The first round keeps 2, the second, which is given 2 and no
longer 0, brings 1 back in. But 0 and 2 alone are closed: 1 is excluded by 0. -/
theorem except_recursion_not_least :
    bindTerm exceptNode.name false exceptNode.term = .ok true ∧
    runFixpoint statementEnv statementLimits exceptNode = .ok [intRow 0, intRow 2, intRow 1] ∧
    ¬ LeastFixpoint exceptNode [intRow 0, intRow 2, intRow 1] := by
  refine ⟨by decide +kernel, by decide +kernel, fun h => ?_⟩
  have hdistinct : DistinctRows [intRow 0, intRow 2] := by
    simp only [DistinctRows, pairwise_cons, Same]
    decide
  have hseed : Within [intRow 0] [intRow 0, intRow 2] :=
    within_of_sublist (List.Sublist.cons_cons _ (nil_sublist _))
  have hterm : termRows exceptNode.term [intRow 0, intRow 2] = .ok [intRow 2] := by decide +kernel
  have hclosed : ClosedUnder exceptNode [intRow 0, intRow 2] :=
    ⟨⟨_, rfl, hseed⟩, _, hterm, within_of_sublist (sublist_cons_self _ _)⟩
  obtain ⟨z, hz, hsame⟩ := h.2 _ hdistinct hclosed (intRow 1) ⟨intRow 1, by decide, Same.refl _⟩
  unfold Same at hsame
  rcases mem_cons.mp hz with rfl | hz
  · exact absurd hsame (by decide)
  · rw [mem_singleton.mp hz] at hsame
    exact absurd hsame (by decide)

/-- The same with `SELECT x + 1 FROM r INTERSECT SELECT x FROM t` for a term. -/
def intersectNode : RecursiveCteNode :=
  { exceptNode with
    term := .setOp .intersect {} ⟨selectX, selectX⟩ (selectFrom .working selectNext)
      (selectFrom (.other (table [intRow 1, intRow 2])) selectX) }

theorem intersect_recursion_least :
    DistinctRows [intRow 0, intRow 1, intRow 2] ∧
      LeastFixpoint intersectNode [intRow 0, intRow 1, intRow 2] := by
  have hbind : bindTerm "r" false intersectNode.term = .ok true := by decide +kernel
  have hadd : Additive intersectNode.term := additive_of_bindTerm hbind (by decide +kernel)
  have hrun : runFixpoint statementEnv statementLimits intersectNode =
      .ok [intRow 0, intRow 1, intRow 2] := by decide +kernel
  have hstarts : Starts intersectNode := .inl fun h => nomatch Except.ok.inj h
  exact (additive_recursion_least statementEnv statementLimits intersectNode rfl hadd _ hrun).mpr
    hstarts

end RubixDb.Proof
