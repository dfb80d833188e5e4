import RubixDb.Sql.Insert

/-!
# Aggregate functions

`sql/src/aggregate.rs`: the state an aggregate keeps for one group, how a row's value
enters it, and what it comes to in the end. `AGG(DISTINCT x)` puts a set of the values
seen before in front of the same state.

Floating-point arithmetic is a parameter. What a state takes in memory is left out: the
operator counts it, the state does not read it.
-/

namespace RubixDb.Aggregate

open Lib

inductive AggregateFunc where
  | count
  | sum
  | avg
  | min
  | max
deriving DecidableEq, Repr

def AggregateFunc.name : AggregateFunc → String
  | .count => "count"
  | .sum => "sum"
  | .avg => "avg"
  | .min => "min"
  | .max => "max"

/-- The variants of `SqlError` an aggregate fails with. -/
inductive AggregateError where
  | typeMismatch (detail : String)
  | unsupported (detail : String)
  | resourceLimit (detail : String)
  | executionParameter (detail : String)
  /-- `ExecutionParameter` with the detail of what `validate_decimal` found. -/
  | invalidDecimal (error : RelationalError)

/-- What `{ty:?}` prints. -/
def typeText : RelationalType → String
  | .boolean => "Boolean"
  | .integer => "Integer"
  | .bigint => "Bigint"
  | .real => "Real"
  | .double => "Double"
  | .decimal scale => "Decimal \x7b scale: " ++ toString scale.toNat ++ " \x7d"
  | .text => "Text"
  | .blob => "Blob"
  | .date => "Date"
  | .time => "Time"
  | .timestamp => "Timestamp"

/-! ## Arithmetic -/

/-- The operations of IEEE numbers on their bit patterns. -/
structure FloatOps where
  add32 : BitVec 32 → BitVec 32 → BitVec 32
  add64 : BitVec 64 → BitVec 64 → BitVec 64
  div32 : BitVec 32 → BitVec 32 → BitVec 32
  div64 : BitVec 64 → BitVec 64 → BitVec 64
  /-- `i as f64`, for either width of a signed integer. -/
  ofInt : Int → BitVec 64
  /-- `count as f32` and `count as f64`. -/
  count32 : Nat → BitVec 32
  count64 : Nat → BitVec 64

def checkedAdd {w : Nat} (a b : BitVec w) : Option (BitVec w) :=
  if a.saddOverflow b then none else some (a + b)

/-- `partial_cmp`, undefined on not-a-number. -/
def orderFloat {w : Nat} (isNan : BitVec w → Bool) (a b : BitVec w) :
    Except AggregateError Ordering :=
  if isNan a || isNan b then .error (.executionParameter "NaN is not orderable in MIN/MAX")
  else .ok (compare (floatOrder a) (floatOrder b))

def orderValue : RelationalValue → RelationalValue → Except AggregateError Ordering
  | .boolean a, .boolean b => .ok (compare a b)
  | .integer a, .integer b => .ok (compare a.toInt b.toInt)
  | .bigint a, .bigint b => .ok (compare a.toInt b.toInt)
  | .real a, .real b => orderFloat f32IsNan a b
  | .double a, .double b => orderFloat f64IsNan a b
  | .decimal a s, .decimal b t =>
    if s = t then .ok (compare a.toInt b.toInt)
    else .error (.executionParameter "type mismatch in MIN/MAX comparison")
  | .text a, .text b => .ok (compare (utf8Bytes a) (utf8Bytes b))
  | .blob a, .blob b => .ok (compare a b)
  | .date a, .date b => .ok (compare a.toInt b.toInt)
  | .time a, .time b => .ok (compare a.toInt b.toInt)
  | .timestamp a, .timestamp b => .ok (compare a.toInt b.toInt)
  | _, _ => .error (.executionParameter "type mismatch in MIN/MAX comparison")

/-! ## The state of one group -/

inductive AggregateState where
  | countStar (count : Nat)
  | countExpr (count : Nat)
  | sumInt (sum : BitVec 64) (seenNonNull : Bool)
  | sumReal (sum : BitVec 32) (seenNonNull : Bool)
  | sumDouble (sum : BitVec 64) (seenNonNull : Bool)
  | sumDecimal (sum : BitVec 128) (scale : UInt8) (seenNonNull : Bool)
  | avgDouble (sum : BitVec 64) (count : Nat)
  | avgReal (sum : BitVec 32) (count : Nat)
  | min (min : Option RelationalValue)
  | max (max : Option RelationalValue)
deriving DecidableEq

/-- The state of a `SUM`. -/
def AggregateState.initialSum : RelationalType → Except AggregateError AggregateState
  | .integer => .ok (.sumInt 0 false)
  | .bigint => .ok (.sumInt 0 false)
  | .real => .ok (.sumReal 0 false)
  | .double => .ok (.sumDouble 0 false)
  | .decimal scale => .ok (.sumDecimal 0 scale false)
  | ty => .error (.typeMismatch ("SUM does not support " ++ typeText ty))

def AggregateState.initialAvg : RelationalType → Except AggregateError AggregateState
  | .real => .ok (.avgReal 0 0)
  | .integer => .ok (.avgDouble 0 0)
  | .bigint => .ok (.avgDouble 0 0)
  | .double => .ok (.avgDouble 0 0)
  | .decimal _ => .error (.unsupported <|
      "AVG(DECIMAL) is unsupported because DECIMAL division requires scale " ++
      "rescaling not present in RelationalValue")
  | ty => .error (.typeMismatch ("AVG does not support " ++ typeText ty))

def AggregateState.initial (func : AggregateFunc) (isWildcard : Bool)
    (inputType : Option RelationalType) : Except AggregateError AggregateState :=
  if isWildcard then
    if func = .count then .ok (.countStar 0)
    else .error (.typeMismatch (func.name ++ " does not support wildcard argument (*)"))
  else
    match func, inputType with
    | .count, _ => .ok (.countExpr 0)
    | .sum, none => .error (.typeMismatch "SUM requires typed argument")
    | .sum, some ty => AggregateState.initialSum ty
    | .avg, none => .error (.typeMismatch "AVG requires typed argument")
    | .avg, some ty => AggregateState.initialAvg ty
    | .min, _ => .ok (.min none)
    | .max, _ => .ok (.max none)

/-- One more, in 64 bits. -/
def increment (count : Nat) (detail : String) : Except AggregateError Nat :=
  if count + 1 ≤ u64Max then .ok (count + 1) else .error (.resourceLimit detail)

/-! What a state adds, of the values it adds. -/

def addendInt : RelationalValue → Except AggregateError (BitVec 64)
  | .integer i => .ok (i.signExtend 64)
  | .bigint b => .ok b
  | _ => .error (.executionParameter "SUM(integer/bigint) received non-integer value")

def addendReal : RelationalValue → Except AggregateError (BitVec 32)
  | .real r => .ok r
  | _ => .error (.executionParameter "SUM(real) received non-real value")

def addendDouble : RelationalValue → Except AggregateError (BitVec 64)
  | .double d => .ok d
  | _ => .error (.executionParameter "SUM(double) received non-double value")

def addendDecimal (scale : UInt8) : RelationalValue → Except AggregateError (BitVec 128)
  | .decimal d s =>
    if s = scale then .ok d
    else .error (.executionParameter "SUM(decimal) received mismatched decimal scale")
  | _ => .error (.executionParameter "SUM(decimal) received mismatched decimal scale")

def addendAvgDouble (fp : FloatOps) : RelationalValue → Except AggregateError (BitVec 64)
  | .integer i => .ok (fp.ofInt i.toInt)
  | .bigint b => .ok (fp.ofInt b.toInt)
  | .double d => .ok d
  | _ => .error (.executionParameter "AVG(double) received non-numeric value")

def addendAvgReal : RelationalValue → Except AggregateError (BitVec 32)
  | .real r => .ok r
  | _ => .error (.executionParameter "AVG(real) received non-real value")

def addInt (sum addend : BitVec 64) : Except AggregateError AggregateState :=
  match checkedAdd sum addend with
  | some sum => .ok (.sumInt sum true)
  | none => .error (.executionParameter "arithmetic overflow in SUM")

def addDecimal (sum addend : BitVec 128) (scale : UInt8) : Except AggregateError AggregateState :=
  match checkedAdd sum addend with
  | none => .error (.executionParameter "arithmetic overflow in SUM(DECIMAL)")
  | some sum =>
    match validateDecimal sum.toInt maxDecimalPrecision scale.toNat with
    | .ok () => .ok (.sumDecimal sum scale true)
    | .error error => .error (.invalidDecimal error)

/-- The value, or the one kept so far if that does not compare as wanted to it. -/
def better (wanted : Ordering) (val : RelationalValue) (kept : Option RelationalValue) :
    Except AggregateError (Option RelationalValue) :=
  match kept with
  | none => .ok (some val)
  | some current => do
    let order ← orderValue val current
    .ok (some (if order = wanted then val else current))

section Update

variable (fp : FloatOps)

/-- A value that is not `NULL`. -/
def AggregateState.updateValue (val : RelationalValue) :
    AggregateState → Except AggregateError AggregateState
  | .countStar count => do
    let count ← increment count "COUNT(*) exceeded u64 capacity"
    .ok (.countStar count)
  | .countExpr count => do
    let count ← increment count "COUNT(expr) exceeded u64 capacity"
    .ok (.countExpr count)
  | .sumInt sum _ => do
    let addend ← addendInt val
    addInt sum addend
  | .sumReal sum _ => do
    let addend ← addendReal val
    .ok (.sumReal (fp.add32 sum addend) true)
  | .sumDouble sum _ => do
    let addend ← addendDouble val
    .ok (.sumDouble (fp.add64 sum addend) true)
  | .sumDecimal sum scale _ => do
    let addend ← addendDecimal scale val
    addDecimal sum addend scale
  | .avgDouble sum count => do
    let addend ← addendAvgDouble fp val
    let count ← increment count "AVG count exceeded u64 capacity"
    .ok (.avgDouble (fp.add64 sum addend) count)
  | .avgReal sum count => do
    let addend ← addendAvgReal val
    let count ← increment count "AVG count exceeded u64 capacity"
    .ok (.avgReal (fp.add32 sum addend) count)
  | .min kept => do
    let kept ← better .lt val kept
    .ok (.min kept)
  | .max kept => do
    let kept ← better .gt val kept
    .ok (.max kept)

/-- One row's value; only `COUNT(*)` counts a `NULL`. -/
def AggregateState.update (state : AggregateState) (val : Option RelationalValue) :
    Except AggregateError AggregateState :=
  match val with
  | some val => state.updateValue fp val
  | none =>
    match state with
    | .countStar count => do
      let count ← increment count "COUNT(*) exceeded u64 capacity"
      .ok (.countStar count)
    | state => .ok state

/-- `finalize`. -/
def AggregateState.value : AggregateState → Option RelationalValue
  | .countStar count => some (.bigint (BitVec.ofNat 64 count))
  | .countExpr count => some (.bigint (BitVec.ofNat 64 count))
  | .sumInt sum seenNonNull => if seenNonNull then some (.bigint sum) else none
  | .sumReal sum seenNonNull => if seenNonNull then some (.real sum) else none
  | .sumDouble sum seenNonNull => if seenNonNull then some (.double sum) else none
  | .sumDecimal sum scale seenNonNull => if seenNonNull then some (.decimal sum scale) else none
  | .avgDouble sum count =>
    if count = 0 then none else some (.double (fp.div64 sum (fp.count64 count)))
  | .avgReal sum count =>
    if count = 0 then none else some (.real (fp.div32 sum (fp.count32 count)))
  | .min kept => kept
  | .max kept => kept

/-! ## DISTINCT -/

structure AggregateAccumulator where
  state : AggregateState
  /-- The values of this group so far, of a `DISTINCT` aggregate. -/
  seen : Option (List RelationalValue)

def AggregateAccumulator.new (state : AggregateState) (distinct : Bool) : AggregateAccumulator :=
  ⟨state, if distinct then some [] else none⟩

def AggregateAccumulator.update (acc : AggregateAccumulator) (val : Option RelationalValue) :
    Except AggregateError AggregateAccumulator :=
  match acc.seen, val with
  | none, val => do
    let state ← acc.state.update fp val
    .ok ⟨state, none⟩
  | some _, none => .ok acc
  | some seen, some v =>
    let key := groupingValue v
    if seen.contains key then .ok acc
    else do
      let state ← acc.state.update fp (some v)
      .ok ⟨state, some (key :: seen)⟩

/-- The rows of a group, in the order they come. -/
def AggregateAccumulator.updateAll (acc : AggregateAccumulator) :
    List (Option RelationalValue) → Except AggregateError AggregateAccumulator
  | [] => .ok acc
  | val :: vals => do
    let acc ← acc.update fp val
    acc.updateAll vals

/-- An aggregate call over the rows of one group. -/
def aggregate (func : AggregateFunc) (isWildcard distinct : Bool)
    (inputType : Option RelationalType) (vals : List (Option RelationalValue)) :
    Except AggregateError (Option RelationalValue) := do
  let state ← AggregateState.initial func isWildcard inputType
  let acc ← (AggregateAccumulator.new state distinct).updateAll fp vals
  .ok (acc.state.value fp)

end Update

end RubixDb.Aggregate
