import RubixDb.Lib.Checked

/-!
# NTILE

The `Ntile` branch of `compute_function` (`sql/src/exec/window.rs`). The bucket count is the
constant argument, an `i64` that `function_constants` has found positive, and the sums and
products are those of `u128`, where they fit; a bucket number is at most the count, so the
conversion to `i64` keeps it.
-/

namespace RubixDb

open Lib

/-- The bucket of the row at position `p`. -/
def ntileBucket (base rem p : Nat) : Checked Empty Nat :=
  if p < rem * (base + 1) then do
    let q ← checkedDiv p (base + 1)
    .ok (q + 1)
  else do
    let d ← checkedSub p (rem * (base + 1))
    let q ← checkedDiv d base
    .ok (rem + q + 1)

/-- The bucket numbers of a partition of `n` rows, in its order. -/
def ntile (n k : Nat) : Checked Empty (List Nat) := do
  let base ← checkedDiv n k
  let rem ← checkedRem n k
  (List.range n).mapM (ntileBucket base rem)

end RubixDb
