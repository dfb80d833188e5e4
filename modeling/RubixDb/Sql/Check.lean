import RubixDb.Catalog.Cache

/-!
# CHECK constraints

`sql/src/check.rs`: a row violates a constraint whose expression evaluates to false; true
and `NULL` pass. How an expression evaluates is left open: `none` is an evaluation that
fails.
-/

namespace RubixDb

abbrev CheckEval := String → Row → Option (Option Bool)

/-- The first constraint a row violates; the outer `none` is a failed evaluation. -/
def firstViolation (eval : CheckEval) : List ConstraintRow → Row → Option (Option ConstraintRow)
  | [], _ => some none
  | check :: checks, row =>
    match eval check.checkExpression row with
    | none => none
    | some (some false) => some (some check)
    | some _ => firstViolation eval checks row

/-- `check_rows_against` succeeds. -/
def rowsSatisfy (eval : CheckEval) (checks : List ConstraintRow) (rows : List Row) : Bool :=
  rows.all fun row => firstViolation eval checks row = some none

/-- The constraints of one table. -/
def checksFor (checks : List ConstraintRow) (tableId : Nat) : List ConstraintRow :=
  checks.filter fun c => c.tableId = tableId

end RubixDb
