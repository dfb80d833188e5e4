import RubixDb.Sql.SetOp

/-!
# Comparing values in a query

Comparisons under three-valued logic and `LIKE` (`sql/src/exec/expr_eval.rs`), `IN` and the
quantified comparisons over the values of a subquery (`sql/src/exec/subquery.rs`), and the
order of sort keys with the `DISTINCT` and `Sort` operators (`sql/src/exec/operators.rs`).

The rows of a subquery or an input are given; checks of the deadline and the metrics are
left out.
-/

namespace RubixDb.Compare

open Lib
open SetOp (ExecError valueBytes)

/-! ## Three-valued logic -/

inductive Tri where
  | true
  | false
  | unknown
deriving DecidableEq, Repr

def Tri.fromBool (b : Bool) : Tri := if b then .true else .false

def triOr : Tri → Tri → Tri
  | .true, _ => .true
  | _, .true => .true
  | .false, .false => .false
  | _, _ => .unknown

def triNot : Tri → Tri
  | .true => .false
  | .false => .true
  | .unknown => .unknown

inductive BinaryOp where
  | and
  | or
  | add
  | sub
  | mul
  | div
  | mod
  | eq
  | notEq
  | lt
  | ltEq
  | gt
  | gtEq
deriving DecidableEq, Repr

def nanError : ExecError := .other "NaN is not orderable"

def mismatchError : ExecError :=
  .other ("comparison between mismatched value types (the binder already guarantees matching " ++
    "types; this indicates an internal inconsistency)")

/-- `partial_cmp` of two floating-point numbers. -/
def partialCmp {w : Nat} (isNan : BitVec w → Bool) (a b : BitVec w) : Option Ordering :=
  if isNan a || isNan b then none else some (Ord.compare (floatOrder a) (floatOrder b))

def valueCmp : RelationalValue → RelationalValue → Except ExecError Ordering
  | .real a, .real b => (partialCmp f32IsNan a b).elim (.error nanError) .ok
  | .double a, .double b => (partialCmp f64IsNan a b).elim (.error nanError) .ok
  -- two decimals of different scales are of different types
  | a, b => if a.valueType = b.valueType then .ok (a.cmp b) else .error mismatchError

/-- What an ordering of two values says about the comparison, if it is one. -/
def BinaryOp.holds : BinaryOp → Ordering → Option Bool
  | .eq, o => some (o == .eq)
  | .notEq, o => some (o != .eq)
  | .lt, o => some (o == .lt)
  | .ltEq, o => some (o != .gt)
  | .gt, o => some (o == .gt)
  | .gtEq, o => some (o != .lt)
  | _, _ => none

def compare : Option RelationalValue → Option RelationalValue → BinaryOp → Except ExecError Tri
  | some a, some b, op => do
    let ordering ← valueCmp a b
    match op.holds ordering with
    | some result => .ok (.fromBool result)
    | none => .error (.other "non-comparison operator reached value comparison")
  | _, _, _ => .ok .unknown

/-! ## IN, ANY and ALL -/

/-- The values of an `IN` subquery, up to what `GROUP BY` tells apart. -/
structure InSet where
  values : List RelationalValue
  hasNull : Bool
  empty : Bool

structure InLimits where
  maxMaterializedRows : Nat
  maxMaterializedBytes : Nat

/-- `size_of::<GroupingKey>()`, a vector, and what a slot of the hash table costs. -/
def keyOverhead : Nat := 24 + 32

/-- The loop of `run_in_set`, behind `rows` values of `bytes` bytes. -/
def runInSet (limits : InLimits) (rows bytes : Nat) (set : InSet) :
    List (Option RelationalValue) → Except ExecError InSet
  | [] => .ok { set with empty := rows = 0 }
  | v :: vs =>
    if limits.maxMaterializedRows < rows + 1 then
      .error (.resourceLimit ("an IN subquery produced more than max_materialized_rows (" ++
        toString limits.maxMaterializedRows ++ ") rows"))
    else
      match v with
      | none => runInSet limits (rows + 1) bytes { set with hasNull := true } vs
      | some v =>
        let key := groupingValue v
        if set.values.contains key then runInSet limits (rows + 1) bytes set vs
        else
          let bytes := min usizeMax (bytes + (valueBytes (some key) + keyOverhead))
          if limits.maxMaterializedBytes < bytes then
            .error (.resourceLimit ("an IN subquery result exceeded max_materialized_bytes (" ++
              toString limits.maxMaterializedBytes ++ ")"))
          else runInSet limits (rows + 1) bytes { set with values := key :: set.values } vs

def inTri (lhs : Option RelationalValue) (set : InSet) : Tri :=
  if set.empty then .false
  else
    match lhs with
    | none => .unknown
    | some v =>
      if set.values.contains (groupingValue v) then .true
      else if set.hasNull then .unknown else .false

/-- The loop of `quantified_tri`, which stops at a decisive comparison. -/
def quantifiedLoop (lhs : Option RelationalValue) (op : BinaryOp) (decisive : Tri) :
    List (Option RelationalValue) → Tri → Except ExecError Tri
  | [], result => .ok result
  | v :: vs, result => do
    let t ← compare lhs v op
    if t = decisive then .ok decisive
    else quantifiedLoop lhs op decisive vs (if t = .unknown then .unknown else result)

def quantifiedTri (lhs : Option RelationalValue) (values : List (Option RelationalValue))
    (op : BinaryOp) (all : Bool) : Except ExecError Tri :=
  quantifiedLoop lhs op (.fromBool !all) values (.fromBool all)

/-! ## LIKE -/

/-- A call of `like_match_chars`: what is left of the value and of the pattern. -/
abbrev LikeCall := List Char × List Char

/-- The calls of `like_match_chars` on the suffixes of a value with the pattern `%p`; `rest`
are those with what follows the `%`. -/
def anySuffix (p : List Char) (rest : List Char → Bool × List LikeCall) :
    List Char → Bool × List LikeCall
  | [] => ((rest []).1, ([], '%' :: p) :: (rest []).2)
  | c :: v =>
    if (rest (c :: v)).1 then (true, (c :: v, '%' :: p) :: (rest (c :: v)).2)
    else ((anySuffix p rest v).1,
      (c :: v, '%' :: p) :: ((rest (c :: v)).2 ++ (anySuffix p rest v).2))

/-- `like_match_chars`, pattern first, with its calls in order. -/
def likeMatchChars : List Char → List Char → Bool × List LikeCall
  | [], v => (v.isEmpty, [(v, [])])
  | d :: p, v =>
    if d = '%' then anySuffix p (likeMatchChars p) v
    else
      match v with
      | [] => (false, [([], d :: p)])
      | c :: v =>
        if d = '_' ∨ c = d then ((likeMatchChars p v).1, (c :: v, d :: p) :: (likeMatchChars p v).2)
        else (false, [(c :: v, d :: p)])

/-- `like_match`. -/
def likeMatch (toLowercase : String → String) (value pattern : String) (caseInsensitive : Bool) :
    Bool × List LikeCall :=
  if caseInsensitive then
    likeMatchChars (toLowercase pattern).toList (toLowercase value).toList
  else likeMatchChars pattern.toList value.toList

/-! ## ORDER BY and DISTINCT -/

inductive NullsOrder where
  | first
  | last
deriving DecidableEq, Repr

/-- An item of the `ORDER BY`, beside its expression. -/
structure BoundOrderByItem where
  descending : Bool
  nulls : NullsOrder
deriving DecidableEq, Repr

/-- `value_ordering`: not-a-number ties with every number. -/
def valueOrdering : RelationalValue → RelationalValue → Ordering
  | .real a, .real b => (partialCmp f32IsNan a b).getD .eq
  | .double a, .double b => (partialCmp f64IsNan a b).getD .eq
  | a, b => a.cmp b

def compareItem (item : BoundOrderByItem) :
    Option RelationalValue → Option RelationalValue → Ordering
  | none, none => .eq
  | none, some _ => if item.nulls = .first then .lt else .gt
  | some _, none => if item.nulls = .first then .gt else .lt
  | some a, some b => if item.descending then (valueOrdering a b).swap else valueOrdering a b

def compareSortKeys : List BoundOrderByItem → Row → Row → Ordering
  | item :: items, a :: as, b :: bs => (compareItem item a b).then (compareSortKeys items as bs)
  | _, _, _ => .eq

/-- The derived equality of rows. -/
def rowsEqual : Row → Row → Bool
  | [], [] => true
  | none :: as, none :: bs => rowsEqual as bs
  | some a :: as, some b :: bs => a.same b && rowsEqual as bs
  | _, _ => false

/-- `DistinctOp` over the tuples of its input, each with its projected row; `seen` are the
rows it has let through. -/
def distinctOp {T : Type} (maxMaterializedRows : Nat) (projected : T → Row) (seen : List Row) :
    List T → Except ExecError (List T)
  | [] => .ok []
  | t :: ts =>
    if seen.any fun row => rowsEqual row (projected t) then
      distinctOp maxMaterializedRows projected seen ts
    else if maxMaterializedRows ≤ seen.length then
      .error (.resourceLimit ("DISTINCT examined more than max_materialized_rows (" ++
        toString maxMaterializedRows ++ ") distinct values"))
    else do
      let out ← distinctOp maxMaterializedRows projected (seen ++ [projected t]) ts
      .ok (t :: out)

/-- A bound expression, as it evaluates on the rows `C` of the plan below. -/
abbrev BoundExpr (C : Type) := C → Except ExecError (Option RelationalValue)

/-- A row of the plan below and what is projected of it. -/
structure Tuple (C : Type) where
  ctx : C
  projected : Row

/-- `SELECT DISTINCT projection ... ORDER BY orderBy`. The binder takes any expression over
the rows of the `FROM` clause for the `ORDER BY`, whether or not it is in the select list. -/
structure DistinctSelect (C : Type) where
  projection : List (BoundExpr C)
  orderBy : List (BoundExpr C × BoundOrderByItem)

variable {C : Type}

def evalAll (exprs : List (BoundExpr C)) (c : C) : Except ExecError Row := exprs.mapM fun e => e c

/-- `ProjectionOp`: the tuples before the first error, and the error. -/
def projectionOp (items : List (BoundExpr C)) : List C → List (Tuple C) × Option ExecError
  | [] => ([], none)
  | c :: cs =>
    match evalAll items c with
    | .error e => ([], some e)
    | .ok projected => (⟨c, projected⟩ :: (projectionOp items cs).1, (projectionOp items cs).2)

/-- `SortOp::materialize`; `sort_by` is stable. -/
def sortOp (maxMaterializedRows : Nat) (orderBy : List (BoundExpr C × BoundOrderByItem))
    (rows : List (Tuple C)) : Except ExecError (List (Tuple C)) :=
  if maxMaterializedRows < rows.length then
    .error (.resourceLimit ("ORDER BY input exceeds max_materialized_rows (" ++
      toString maxMaterializedRows ++ ")"))
  else do
    let keyed ← rows.mapM fun t => (evalAll (orderBy.map (·.1)) t.ctx).map fun key => (key, t)
    .ok ((keyed.mergeSort fun a b =>
      (compareSortKeys (orderBy.map (·.2)) a.1 b.1).isLE).map (·.2))

/-- The plan of the statement: `Sort` over `Distinct` over `Projection`, which fails once the
tuples before its error are through. -/
def DistinctSelect.run (q : DistinctSelect C) (maxMaterializedRows : Nat) (input : List C) :
    Except ExecError (List (Tuple C)) := do
  let rows ← distinctOp maxMaterializedRows Tuple.projected [] (projectionOp q.projection input).1
  match (projectionOp q.projection input).2 with
  | some e => .error e
  | none => sortOp maxMaterializedRows q.orderBy rows

end RubixDb.Compare
