import RubixDb.Sql.SetOp

/-!
# Recursive common table expressions

`WITH RECURSIVE name AS (seed UNION [ALL] term)`: the restrictions `sql/src/bind/recursive.rs`
and `bind_working_reference` of `sql/src/bind/select.rs` put on the term, and the loop of
`sql/src/exec/recursive.rs` that runs it.

A tuple is the rows of the `FROM` items bound so far. Expressions, and the tables and
derived tables of a `FROM`, are functions of the tuple before them on the fixed snapshot.
None of them tells rows apart that are not distinct: there is no cast, a division by either
zero is an error, and comparisons and grouping see one zero and one not-a-number.

The checks of the deadline inside the loop can only make it fail and are left out, as are
the metrics.
-/

namespace RubixDb.Recursive

open Lib SetOp

/-! ## Queries -/

/-- The empty row stands for an item that a `LEFT JOIN` null-extended. -/
abbrev Tuple := List Row

def Same (a b : Row) : Prop := rowsNotDistinct a b = true

def SameTuple : Tuple → Tuple → Prop := List.Forall₂ Same

/-- A condition, and whether it is TRUE. -/
structure Condition where
  isTrue : Tuple → Except ExecError Bool
  respects : ∀ a b, SameTuple a b → isTrue a = isTrue b

/-- Rows computed from what was bound before, one (a select list, a widening) or many (a
table, a derived table). -/
structure RowSource where
  rows : Tuple → Except ExecError (List Row)
  respects : ∀ a b, SameTuple a b → Parallel Same (rows a) (rows b)

inductive Relation where
  | working
  | other (source : RowSource)

inductive JoinKind where
  | inner
  | left
deriving DecidableEq

structure Join where
  kind : JoinKind
  relation : Relation
  on : Condition

/-- What may follow a query, and what these clauses make of its rows. -/
structure Trailing where
  orderBy : Bool := false
  /-- `LIMIT` or `OFFSET`. -/
  limit : Bool := false
  finish : List Row → Except ExecError (List Row) := .ok

/-- The clauses `check_term` asks about in a block. -/
structure Clauses extends Trailing where
  /-- An aggregate function, `GROUP BY` or `HAVING`. -/
  aggregates : Bool := false
  /-- A window function, `QUALIFY`, or `ROLLUP`, `CUBE` or `GROUPING SETS`. -/
  windows : Bool := false

structure Block where
  first : Relation
  joins : List Join
  selection : Condition
  projection : RowSource
  distinct : Bool
  clauses : Clauses

/-- How the rows of a set operation's operands are brought to its columns and their types. -/
structure Widening where
  left : RowSource
  right : RowSource

/-- A bound query, as a term is made of them. -/
inductive BoundSelect where
  | block (b : Block)
  | setOp (kind : Kind) (trailing : Trailing) (widen : Widening) (left right : BoundSelect)

/-! ## What the binder accepts -/

/-- `bind_working_reference`: `refs` references were bound before. -/
def Relation.bind (name : String) (refs : Nat) (nullExtended : Bool) : Relation → Except String Nat
  | .other _ => .ok refs
  | .working =>
    if 0 < refs then
      .error s!"recursive reference '{name}' must appear exactly once in the recursive term"
    else if nullExtended then
      .error s!"recursive reference '{name}' must not be on the nullable side of an outer join"
    else .ok (refs + 1)

def bindJoins (name : String) : Nat → List Join → Except String Nat
  | refs, [] => .ok refs
  | refs, join :: joins => do
    let refs ← join.relation.bind name refs (join.kind == .left)
    bindJoins name refs joins

/-- The references to the working table, counted as they are bound. A reference inside a
subquery or a derived table is refused by its depth: here it cannot be written. -/
def bindReferences (name : String) : Nat → BoundSelect → Except String Nat
  | refs, .block b => do
    let refs ← b.first.bind name refs false
    bindJoins name refs b.joins
  | refs, .setOp _ _ _ left right => do
    let refs ← bindReferences name refs left
    bindReferences name refs right

def Relation.isWorking : Relation → Bool
  | .working => true
  | .other _ => false

def BoundSelect.readsWorkingTable : BoundSelect → Bool
  | .block b => b.first.isWorking || b.joins.any fun join => join.relation.isWorking
  | .setOp _ _ _ left right => left.readsWorkingTable || right.readsWorkingTable

def checkBlock (here : String) (all : Bool) (b : Block) : Except String Unit :=
  if b.clauses.aggregates then
    .error (s!"aggregate functions, GROUP BY and HAVING are not allowed in {here}; " ++
      "they are allowed in the seed")
  else if b.clauses.windows then
    .error ("window functions, QUALIFY and ROLLUP / CUBE / GROUPING SETS are not allowed in " ++
      s!"{here}; they are allowed in the seed")
  else if b.distinct && all then
    .error (s!"SELECT DISTINCT is not allowed in {here} when the recursion is UNION ALL; " ++
      "use UNION, which already removes duplicates")
  else if b.clauses.orderBy then .error s!"ORDER BY is not allowed in {here}"
  else if b.clauses.limit then
    .error s!"LIMIT and OFFSET are not allowed in {here} (they would truncate the recursion)"
  else .ok ()

def checkTerm (here : String) (all : Bool) : BoundSelect → Except String Unit
  | .block b =>
    -- an operand that never reads the working table is just another seed
    if !(BoundSelect.block b).readsWorkingTable then .ok () else checkBlock here all b
  | .setOp kind trailing widen left right =>
    if !(BoundSelect.setOp kind trailing widen left right).readsWorkingTable then .ok ()
    else if trailing.orderBy || trailing.limit then
      .error (s!"ORDER BY, LIMIT and OFFSET are not allowed on {here} " ++
        "(they would reorder or truncate the recursion)")
    else do
      checkTerm here all left
      checkTerm here all right

/-- `bind_recursive_body` on the term: whether there is a recursion. -/
def bindTerm (name : String) (all : Bool) (term : BoundSelect) : Except String Bool := do
  let refs ← bindReferences name 0 term
  if refs = 0 then .ok false
  else do
    checkTerm s!"the recursive term of CTE '{name}'" all term
    .ok true

/-! ## Running a query on a working table -/

def Relation.rows (working : List Row) : Relation → Tuple → Except ExecError (List Row)
  | .working, _ => .ok working
  | .other source, tuple => source.rows tuple

/-- The tuple with one more row, if the condition is TRUE of it. -/
def Condition.extend (on : Condition) (tuple : Tuple) (row : Row) :
    Except ExecError (List Tuple) := do
  let holds ← on.isTrue (tuple ++ [row])
  .ok (if holds then [tuple ++ [row]] else [])

def Join.nullExtend (join : Join) (tuple : Tuple) (matched : List Tuple) : List Tuple :=
  if join.kind == .left && matched.isEmpty then [tuple ++ [[]]] else matched

/-- `NestedLoopJoinOp` on one tuple of its left side. -/
def Join.step (working : List Row) (join : Join) (tuple : Tuple) :
    Except ExecError (List Tuple) := do
  let inner ← join.relation.rows working tuple
  let matched ← concatM (join.on.extend tuple) inner
  .ok (join.nullExtend tuple matched)

def runJoins (working : List Row) : List Join → List Tuple → Except ExecError (List Tuple)
  | [], tuples => .ok tuples
  | join :: joins, tuples => concatM (join.step working) tuples >>= runJoins working joins

/-- `WHERE` and the select list on one tuple. -/
def Block.output (b : Block) (tuple : Tuple) : Except ExecError (List Row) := do
  let keep ← b.selection.isTrue tuple
  if keep then b.projection.rows tuple else .ok []

/-- The `PartialEq` of rows: not-a-number equals nothing. -/
def rowsEqual (a b : Row) : Bool :=
  a.length == b.length && (a.zip b).all fun
    | (some x, some y) => x.same y
    | (none, none) => true
    | _ => false

/-- `DistinctOp`. -/
def distinctRows (env : Env) : List Row → List Row → Except ExecError (List Row)
  | _, [] => .ok []
  | seen, row :: rows =>
    if seen.any fun s => rowsEqual s row then distinctRows env seen rows
    else if env.maxMaterializedRows ≤ seen.length then
      .error (.resourceLimit <| "DISTINCT examined more than max_materialized_rows " ++
        s!"({env.maxMaterializedRows}) distinct values")
    else do
      let rest ← distinctRows env (seen ++ [row]) rows
      .ok (row :: rest)

/-- Nothing follows that `check_term` refuses. -/
def Trailing.plain (t : Trailing) : Bool := !t.orderBy && !t.limit

def Clauses.plain (c : Clauses) : Bool := c.toTrailing.plain && !c.aggregates && !c.windows

/-- The clauses, if there are any. -/
def Trailing.apply (t : Trailing) (plain : Bool) (rows : List Row) : Except ExecError (List Row) :=
  if plain then .ok rows else t.finish rows

/-- Bounds may depend on what an operator is given: none do in a statement. -/
abbrev Bounds := List Row → List Row → Env

def Block.dedup (bounds : Bounds) (b : Block) (rows : List Row) : Except ExecError (List Row) :=
  if b.distinct then distinctRows (bounds rows []) [] rows else .ok rows

def Block.rows (bounds : Bounds) (b : Block) (working : List Row) :
    Except ExecError (List Row) := do
  let firsts ← b.first.rows working []
  let tuples ← runJoins working b.joins (firsts.map fun row => [row])
  let rows ← concatM b.output tuples
  let rows ← b.dedup bounds rows
  b.clauses.apply b.clauses.plain rows

def BoundSelect.rows (bounds : Bounds) : BoundSelect → List Row → Except ExecError (List Row)
  | .block b, working => b.rows bounds working
  | .setOp kind trailing widen left right, working => do
    let left ← left.rows bounds working >>= concatM fun row => widen.left.rows [row]
    let right ← right.rows bounds working >>= concatM fun row => widen.right.rows [row]
    let rows ← setOpRows (bounds left right) kind (left.map .ok) (right.map .ok)
    trailing.apply trailing.plain rows

/-! ## The fixpoint -/

structure RecursiveCteNode where
  name : String
  /-- The rows of the seed's plan. -/
  seed : Except ExecError (List Row)
  term : BoundSelect
  distinct : Bool

structure RecursiveLimits where
  maxRecursiveCteDepth : Nat
  maxRecursiveCteRows : Nat

/-- The result so far, what it is looked up by, and what it occupies. -/
structure Result where
  rows : List Row := []
  seen : List Row := []
  bytes : Nat := 0

section Fixpoint

variable (env : Env) (limits : RecursiveLimits) (node : RecursiveCteNode)

def checkRoom (result : Result) (row : Row) : Except ExecError Nat :=
  if limits.maxRecursiveCteRows ≤ result.rows.length then
    .error (.resourceLimit <|
      s!"recursive CTE '{node.name}' produced more than max_recursive_cte_rows " ++
      s!"({limits.maxRecursiveCteRows}) rows")
  else
    let bytes := min usizeMax (result.bytes + rowBytes row)
    if env.maxMaterializedBytes < bytes then
      .error (.resourceLimit <|
        s!"recursive CTE '{node.name}' result exceeded max_materialized_bytes " ++
        s!"({env.maxMaterializedBytes})")
    else .ok bytes

/-- Takes one produced row into the result, unless `UNION` already has it. -/
def accept (result : Result) (row : Row) : Except ExecError (Bool × Result) :=
  if node.distinct && result.seen.any fun key => env.sameKey key row then .ok (false, result)
  else do
    let bytes ← checkRoom env limits node result row
    .ok (true, { rows := result.rows ++ [row], bytes := bytes
                 seen := if node.distinct then result.seen ++ [row] else result.seen })

/-- Takes the rows of one evaluation; those accepted are the next working table. -/
def acceptAll (result : Result) (rows : List Row) : Except ExecError (List Row × Result) :=
  feed (accept env limits node) result (rows.map .ok)

/-- The loop: `depth` evaluations of the term are still allowed. -/
def iterate : Nat → Result → List Row → Except ExecError (List Row)
  | _, result, [] => .ok result.rows
  | 0, _, _ :: _ =>
    .error (.resourceLimit <| s!"recursive CTE '{node.name}' did not reach its fixpoint within " ++
      s!"max_recursive_cte_depth ({limits.maxRecursiveCteDepth}) iterations")
  | depth + 1, result, working => do
    let produced ← node.term.rows (fun _ _ => env) working
    let (next, result) ← acceptAll env limits node result produced
    iterate depth result next

def runFixpoint : Except ExecError (List Row) := do
  let seed ← node.seed
  let (working, result) ← acceptAll env limits node {} seed
  iterate env limits node limits.maxRecursiveCteDepth result working

end Fixpoint

end RubixDb.Recursive
