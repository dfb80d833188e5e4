import RubixDb.Lib.FilterStream
import RubixDb.Sql.Insert

/-!
# UNION, INTERSECT and EXCEPT

`sql/src/exec/setop.rs`. A set operation reads the rows of its two operands and tells rows
apart by their whole tuple, two `NULL`s being the same value. What it has to hold is
bounded, and a bound that is hit is an error.

An operand is what its plan has still to produce, already projected and widened, an error
being an item of it. A hash table finds a key among those of equal hash; the hash is an
arbitrary function of what `Hash for SetKey` feeds to it. The metrics are left out.
-/

namespace RubixDb.SetOp

open Lib

inductive ExecError where
  | resourceLimit (detail : String)
  /-- What an operand or a check of the statement's deadline fails with. -/
  | other (detail : String)
deriving DecidableEq, Repr

/-! ## Telling rows apart -/

def valuesNotDistinct : Option RelationalValue → Option RelationalValue → Bool
  | none, none => true
  | none, some _ => false
  | some _, none => false
  | some (.real p), some (.real q) =>
    (f32IsNan p && f32IsNan q) || (RelationalValue.real p).same (.real q)
  | some (.double p), some (.double q) =>
    (f64IsNan p && f64IsNan q) || (RelationalValue.double p).same (.double q)
  -- the scale of a decimal is part of it, and values of different types are different
  | some x, some y => x == y

def rowsNotDistinct (a b : Row) : Bool :=
  a.length == b.length && (a.zip b).all fun (x, y) => valuesNotDistinct x y

/-- What `Hash for SetKey` feeds to the hasher: the length, and each value up to the sign
of zero and the bits of not-a-number. The tags are the constructors. -/
def hashInput (row : Row) : Nat × Row := (row.length, row.map (Option.map groupingValue))

/-- `size_of::<SetKey>()`, a vector. -/
def setKeySize : Nat := 24

def valueBytes : Option RelationalValue → Nat
  | none => 1
  | some (.boolean _) => 2
  | some (.integer _) => 5
  | some (.real _) => 5
  | some (.date _) => 5
  | some (.bigint _) => 9
  | some (.double _) => 9
  | some (.time _) => 9
  | some (.timestamp _) => 9
  | some (.decimal _ _) => 18
  | some (.text s) => 16 + (utf8Bytes s).length
  | some (.blob b) => 16 + b.length

def rowBytes (row : Row) : Nat := setKeySize + (row.map valueBytes).sum

/-! ## The operator -/

inductive Kind where
  | unionAll
  | union
  | intersect
  | intersectAll
  | except
  | exceptAll
deriving DecidableEq, Repr

inductive Phase where
  | left
  | right
  | done
deriving DecidableEq, Repr

structure Slot where
  /-- How many times the row is in the right operand, less what an `ALL` form consumed. -/
  remaining : Nat
  /-- The left operand has already produced it. -/
  emitted : Bool
deriving DecidableEq, Repr

abbrev Slots := List (Row × Slot)

abbrev Operand := List (Except ExecError Row)

/-- What the execution context gives the operator. -/
structure Env where
  maxMaterializedRows : Nat
  maxMaterializedBytes : Nat
  /-- What the `n`-th check of the statement's deadline says. -/
  check : Nat → Except ExecError Unit
  hasher : Nat × Row → UInt64

/-- What an operator holds, and how often it has checked the deadline. -/
structure Held where
  seen : List Row := []
  slots : Option Slots := none
  bytes : Nat := 0
  ticks : Nat := 0

structure SetOpOp where
  kind : Kind
  left : Operand
  right : Operand
  phase : Phase := .left
  held : Held := {}

/-- `open_set_op`. -/
def openSetOp (kind : Kind) (left right : Operand) : SetOpOp := { kind, left, right }

def Operand.next : Operand → Except ExecError (Option Row × Operand)
  | [] => .ok (none, [])
  | .error e :: _ => .error e
  | .ok row :: rest => .ok (some row, rest)

/-- The `Eq` of a `SetKey`, among keys of one hash. -/
def Env.sameKey (env : Env) (a b : Row) : Bool :=
  env.hasher (hashInput a) == env.hasher (hashInput b) && rowsNotDistinct a b

def Env.getSlot (env : Env) (slots : Slots) (key : Row) : Option Slot :=
  (slots.find? fun entry => env.sameKey entry.1 key).map Prod.snd

/-- Writes through what `get_mut` returned. -/
def Env.setSlot (env : Env) (slots : Slots) (key : Row) (slot : Slot) : Slots :=
  match slots with
  | [] => []
  | entry :: slots =>
    if env.sameKey entry.1 key then (entry.1, slot) :: slots
    else entry :: env.setSlot slots key slot

/-- `ec.check()`. -/
def Env.tick (env : Env) (held : Held) : Except ExecError Held := do
  env.check held.ticks
  .ok { held with ticks := held.ticks + 1 }

/-- `admit`: fails if holding one more row would pass a bound; `count` rows are held. -/
def Env.admitRow (env : Env) (held : Held) (count : Nat) (row : Row) (what : String) :
    Except ExecError Held :=
  if env.maxMaterializedRows ≤ count then
    .error (.resourceLimit
      s!"{what} holds more than max_materialized_rows ({env.maxMaterializedRows}) distinct rows")
  else
    let bytes := min usizeMax (held.bytes + rowBytes row)
    if env.maxMaterializedBytes < bytes then
      .error (.resourceLimit
        s!"{what} exceeded max_materialized_bytes ({env.maxMaterializedBytes})")
    else .ok { held with bytes := bytes }

/-- The next row of `left ++ right`. -/
def SetOpOp.nextConcatenated (op : SetOpOp) : Except ExecError (Option Row × SetOpOp) :=
  let fromRight (op : SetOpOp) : Except ExecError (Option Row × SetOpOp) := do
    match ← Operand.next op.right with
    | (some row, rest) => .ok (some row, { op with right := rest })
    | (none, rest) => .ok (none, { op with right := rest, phase := .done })
  match op.phase with
  | .left => do
    match ← Operand.next op.left with
    | (some row, rest) => .ok (some row, { op with left := rest })
    | (none, rest) => fromRight { op with left := rest, phase := .right }
  | .right => fromRight op
  | .done => .ok (none, op)

def Kind.countsRight : Kind → Bool
  | .unionAll => false
  | .union => false
  | _ => true

/-- What `build_slots` calls the operator in its errors. -/
def Kind.what : Kind → String
  | .intersect => "INTERSECT"
  | .intersectAll => "INTERSECT"
  | _ => "EXCEPT"

/-- `build_slots` on one row of the right operand. -/
def Env.countRow (env : Env) (kind : Kind) (held : Held) (slots : Slots) (row : Row) :
    Except ExecError (Slots × Held) := do
  let held ← env.tick held
  match env.getSlot slots row with
  | some slot => .ok (env.setSlot slots row { slot with remaining := slot.remaining + 1 }, held)
  | none => do
    let held ← env.admitRow held slots.length row kind.what
    .ok (slots ++ [(row, ⟨1, false⟩)], held)

def Env.countRows (env : Env) (kind : Kind) :
    Operand → Held → Slots → Except ExecError (Slots × Held)
  | [], held, slots => .ok (slots, held)
  | item :: rest, held, slots => do
    let row ← item
    let (slots, held) ← env.countRow kind held slots row
    env.countRows kind rest held slots

def SetOpOp.buildSlots (env : Env) (op : SetOpOp) : Except ExecError SetOpOp := do
  let (slots, held) ← env.countRows op.kind op.right op.held []
  .ok { op with right := [], held := { held with slots := some slots } }

/-- What one left row does for `INTERSECT` and `EXCEPT`: it is emitted or dropped. -/
def Env.judge (env : Env) (kind : Kind) (held : Held) (slots : Slots) (row : Row) :
    Except ExecError (Option Row × Slots × Held) :=
  match kind, env.getSlot slots row with
  | .intersect, some slot =>
    if slot.emitted then .ok (none, slots, held)
    else .ok (some row, env.setSlot slots row { slot with emitted := true }, held)
  | .intersect, none => .ok (none, slots, held)
  | .intersectAll, some slot =>
    if 0 < slot.remaining then
      .ok (some row, env.setSlot slots row { slot with remaining := slot.remaining - 1 }, held)
    else .ok (none, slots, held)
  | .intersectAll, none => .ok (none, slots, held)
  | .except, some slot =>
    if 0 < slot.remaining then .ok (none, slots, held)
    else if slot.emitted then .ok (none, slots, held)
    else .ok (some row, env.setSlot slots row { slot with emitted := true }, held)
  | .except, none => do
    let held ← env.admitRow held slots.length row "EXCEPT"
    .ok (some row, slots ++ [(row, ⟨0, true⟩)], held)
  | .exceptAll, some slot =>
    if 0 < slot.remaining then
      .ok (none, env.setSlot slots row { slot with remaining := slot.remaining - 1 }, held)
    else .ok (some row, slots, held)
  | .exceptAll, none => .ok (some row, slots, held)
  -- handled by the caller
  | .unionAll, _ => .ok (none, slots, held)
  | .union, _ => .ok (none, slots, held)

/-- What the loop of `next` does with a row it has read: the row to emit, if any. -/
def Env.process (env : Env) (kind : Kind) (held : Held) (row : Row) :
    Except ExecError (Option Row × Held) :=
  match kind with
  | .unionAll => .ok (some row, held)
  | .union =>
    if held.seen.any fun key => env.sameKey key row then .ok (none, held)
    else do
      let held ← env.admitRow held held.seen.length row "UNION"
      .ok (some row, { held with seen := held.seen ++ [row] })
  | kind => do
    let (verdict, slots, held) ← env.judge kind held (held.slots.getD []) row
    .ok (verdict, { held with slots := some slots })

/-- The row the loop of `next` reads. -/
def SetOpOp.read (op : SetOpOp) : Except ExecError (Option Row × SetOpOp) :=
  if op.kind.countsRight then do
    let (row, left) ← Operand.next op.left
    .ok (row, { op with left := left })
  else op.nextConcatenated

/-- The loop of `next`: every pass but the last reads a row, so that a pass for each row
and one more are enough. -/
def SetOpOp.nextLoop (env : Env) : Nat → SetOpOp → Except ExecError (Option Row × SetOpOp)
  | 0, op => .ok (none, op)
  | passes + 1, op => do
    let held ← env.tick op.held
    match ← SetOpOp.read { op with held := held } with
    | (none, op) => .ok (none, op)
    | (some row, op) => do
      match ← env.process op.kind op.held row with
      | (some row, held) => .ok (some row, { op with held := held })
      | (none, held) => SetOpOp.nextLoop env passes { op with held := held }

def SetOpOp.rowsLeft (op : SetOpOp) : Nat := op.left.length + op.right.length

/-- `Operator::next`. -/
def SetOpOp.next (env : Env) (op : SetOpOp) : Except ExecError (Option Row × SetOpOp) := do
  let op ← if op.kind.countsRight && op.held.slots.isNone then op.buildSlots env else .ok op
  op.nextLoop env (op.rowsLeft + 1)

/-- The rows of the first `n` calls of `next`, up to the one that says there are no more. -/
def SetOpOp.pull (env : Env) : Nat → SetOpOp → Except ExecError (List Row)
  | 0, _ => .ok []
  | n + 1, op => do
    match ← op.next env with
    | (none, _) => .ok []
    | (some row, op) => do
      let rows ← SetOpOp.pull env n op
      .ok (row :: rows)

/-- All that a set operation produces. -/
def setOpRows (env : Env) (kind : Kind) (left right : Operand) : Except ExecError (List Row) :=
  (openSetOp kind left right).pull env (left.length + right.length + 1)

end RubixDb.SetOp
