import RubixDb.Lib.OrderedBytes
import RubixDb.Relational.Value

/-!
# Key encodings

`src/relational/key.rs` and `src/relational/index_key.rs`: how values are laid out in the
keys of rows and of index entries, in an order-preserving way. A row's key is its table
and the primary-key values; an index entry's key is its table, the index, the indexed
values (each behind a tag, `00` for `NULL`) and the primary-key values.

Floating-point values are bit patterns here, so their order is spelled out: leaving
not-a-number aside, they are ordered as sign and magnitude, the two zeros being equal.
-/

namespace RubixDb

open Lib

inductive KeyError where
  | nan (ty : RelationalType)
  | negativeTime (v : Int)
  | keyTooLarge (size : Nat)
  | truncated (need offset : Nat)
  | malformedEscape (byte : UInt8)
  | textNotUtf8
  | truncatedBeforeTag
  | invalidTag (tag : UInt8)
  | trailingBytes (count : Nat)
deriving DecidableEq

/-! ## Floating-point bit patterns -/

/-- The order of floating-point numbers, as an integer: sign and magnitude. -/
def floatOrder {w : Nat} (bits : BitVec w) : Int :=
  if bits.msb then -((bits.toNat % 2 ^ (w - 1) : Nat) : Int) else (bits.toNat % 2 ^ (w - 1) : Nat)

def f32IsNan (bits : BitVec 32) : Bool := 0x7F800000 < bits.toNat % 2 ^ 31

def f64IsNan (bits : BitVec 64) : Bool := 0x7FF0000000000000 < bits.toNat % 2 ^ 63

/-! ## One value -/

/-- Flips the sign bit, so that unsigned order is signed order. -/
def signFlip {w : Nat} (v : BitVec w) : BitVec w := v ^^^ BitVec.intMin w

/-- `monotonic_f32`, `monotonic_f64` behind their check: negative zero is made positive, a
negative number has its bits inverted, a positive one its sign bit set. -/
def monotonic {w : Nat} (bits : BitVec w) : BitVec w :=
  let bits := if floatOrder bits = 0 then 0#w else bits
  if bits.msb then ~~~bits else bits ||| BitVec.intMin w

def encodeKeyValue : RelationalValue → Except KeyError Bytes
  | .boolean v => .ok [if v then 1 else 0]
  | .integer v => .ok (beBytes 4 (signFlip v).toNat)
  | .bigint v => .ok (beBytes 8 (signFlip v).toNat)
  | .date v => .ok (beBytes 4 (signFlip v).toNat)
  | .timestamp v => .ok (beBytes 8 (signFlip v).toNat)
  | .time v =>
    if v.toInt < 0 then .error (.negativeTime v.toInt) else .ok (beBytes 8 v.toNat)
  -- the scale is the column's and not part of the key
  | .decimal v _ => .ok (beBytes 16 (signFlip v).toNat)
  | .real bits =>
    if f32IsNan bits then .error (.nan .real) else .ok (beBytes 4 (monotonic bits).toNat)
  | .double bits =>
    if f64IsNan bits then .error (.nan .double) else .ok (beBytes 8 (monotonic bits).toNat)
  | .text v => .ok (escapeTerminated (utf8Bytes v))
  | .blob v => .ok (escapeTerminated v)

/-! ## Row keys -/

def encodeCompositeKey : List RelationalValue → Except KeyError Bytes
  | [] => .ok []
  | v :: vs => do
    let head ← encodeKeyValue v
    let tail ← encodeCompositeKey vs
    .ok (head ++ tail)

def relationalNamespace : UInt8 := 0x01

/-- The prefix shared by the keys of one index of one table. -/
def indexPrefix (tableId indexId : Nat) : Bytes :=
  relationalNamespace :: (beBytes 4 tableId ++ beBytes 4 indexId)

/-- A row's key; index `0` is the table itself. -/
def tableRowKey (tableId : Nat) (encodedPk : Bytes) : Bytes := indexPrefix tableId 0 ++ encodedPk

/-! ## Index entries -/

def indexedNullTag : UInt8 := 0x00

def indexedPresentTag : UInt8 := 0x01

def maxIndexKeyBytes : Nat := 8 * 1024

def encodeIndexedColumn : Option RelationalValue → Except KeyError Bytes
  | none => .ok [indexedNullTag]
  | some v => do
    let bytes ← encodeKeyValue v
    .ok (indexedPresentTag :: bytes)

def encodeIndexedColumns : List (Option RelationalValue) → Except KeyError Bytes
  | [] => .ok []
  | v :: vs => do
    let head ← encodeIndexedColumn v
    let tail ← encodeIndexedColumns vs
    .ok (head ++ tail)

def indexEntryKey (tableId indexId : Nat) (encodedIndexedColumns encodedPk : Bytes) :
    Except KeyError Bytes :=
  let key := indexPrefix tableId indexId ++ encodedIndexedColumns ++ encodedPk
  if maxIndexKeyBytes < key.length then .error (.keyTooLarge key.length) else .ok key

/-! ## Reading keys back -/

/-- `take`: `len` bytes at `pos`, and the position behind them. -/
def takeKey (bytes : Bytes) (pos len : Nat) : Except KeyError (Bytes × Nat) :=
  if pos + len ≤ bytes.length then .ok ((bytes.drop pos).take len, pos + len)
  else .error (.truncated len pos)

/-- A big-endian integer of `width` bytes. -/
def takeBits (bits width : Nat) (bytes : Bytes) (pos : Nat) :
    Except KeyError (BitVec bits × Nat) := do
  let (raw, pos) ← takeKey bytes pos width
  .ok (BitVec.ofNat bits (beNat raw), pos)

/-- `unmonotonic_f32`, `unmonotonic_f64`. -/
def unmonotonic {w : Nat} (bits : BitVec w) : BitVec w :=
  if bits.msb then bits &&& ~~~BitVec.intMin w else ~~~bits

/-- `decode_escaped_terminated` of the bytes from `pos` on. -/
def unescapeTerminated (pos : Nat) : Bytes → Except KeyError (Bytes × Nat)
  | [] => .error (.truncated 1 pos)
  | b :: bs =>
    if b = 0 then
      match bs with
      | [] => .error (.truncated 1 (pos + 1))
      | c :: bs =>
        if c = 0 then .ok ([], pos + 2)
        else if c = 0xFF then (unescapeTerminated (pos + 2) bs).map fun r => (0 :: r.1, r.2)
        else .error (.malformedEscape c)
    else (unescapeTerminated (pos + 1) bs).map fun r => (b :: r.1, r.2)

def decodeKeyValue (fieldType : RelationalType) (bytes : Bytes) (pos : Nat) :
    Except KeyError (RelationalValue × Nat) :=
  match fieldType with
  | .boolean => do
    let (raw, pos) ← takeKey bytes pos 1
    .ok (.boolean (raw ≠ [0]), pos)
  | .integer => (takeBits 32 4 bytes pos).map fun r => (.integer (signFlip r.1), r.2)
  | .bigint => (takeBits 64 8 bytes pos).map fun r => (.bigint (signFlip r.1), r.2)
  | .date => (takeBits 32 4 bytes pos).map fun r => (.date (signFlip r.1), r.2)
  | .timestamp => (takeBits 64 8 bytes pos).map fun r => (.timestamp (signFlip r.1), r.2)
  | .time => (takeBits 64 8 bytes pos).map fun r => (.time r.1, r.2)
  | .decimal scale => (takeBits 128 16 bytes pos).map fun r => (.decimal (signFlip r.1) scale, r.2)
  | .real => (takeBits 32 4 bytes pos).map fun r => (.real (unmonotonic r.1), r.2)
  | .double => (takeBits 64 8 bytes pos).map fun r => (.double (unmonotonic r.1), r.2)
  | .text => do
    let (raw, pos) ← unescapeTerminated pos (bytes.drop pos)
    match fromUtf8 raw with
    | none => .error .textNotUtf8
    | some v => .ok (.text v, pos)
  | .blob => (unescapeTerminated pos (bytes.drop pos)).map fun r => (.blob r.1, r.2)

/-- The loop of `decode_composite_key` from `pos` on. -/
def decodeKeyValues (bytes : Bytes) (pos : Nat) :
    List RelationalType → Except KeyError (List RelationalValue × Nat)
  | [] => .ok ([], pos)
  | ty :: types => do
    let (value, pos) ← decodeKeyValue ty bytes pos
    let (values, pos) ← decodeKeyValues bytes pos types
    .ok (value :: values, pos)

def decodeCompositeKey (types : List RelationalType) (bytes : Bytes) :
    Except KeyError (List RelationalValue) := do
  let (values, pos) ← decodeKeyValues bytes 0 types
  if pos ≠ bytes.length then .error (.trailingBytes (bytes.length - pos)) else .ok values

/-- `decode_indexed_columns` from `pos` on: the values and where they end. -/
def decodeIndexedColumns (bytes : Bytes) (pos : Nat) :
    List RelationalType → Except KeyError (List (Option RelationalValue) × Nat)
  | [] => .ok ([], pos)
  | ty :: types =>
    match bytes[pos]? with
    | none => .error .truncatedBeforeTag
    | some tag =>
      if tag = indexedNullTag then do
        let (values, pos) ← decodeIndexedColumns bytes (pos + 1) types
        .ok (none :: values, pos)
      else if tag = indexedPresentTag then do
        let (value, pos) ← decodeKeyValue ty bytes (pos + 1)
        let (values, pos) ← decodeIndexedColumns bytes pos types
        .ok (some value :: values, pos)
      else .error (.invalidTag tag)

/-! ## Comparing values -/

/-- How two values of one type compare; the order of values of different types is not
used. -/
def RelationalValue.cmp : RelationalValue → RelationalValue → Ordering
  | .boolean a, .boolean b => compare a b
  | .integer a, .integer b => compare a.toInt b.toInt
  | .bigint a, .bigint b => compare a.toInt b.toInt
  | .real a, .real b => compare (floatOrder a) (floatOrder b)
  | .double a, .double b => compare (floatOrder a) (floatOrder b)
  | .decimal a _, .decimal b _ => compare a.toInt b.toInt
  | .text a, .text b => compare (utf8Bytes a) (utf8Bytes b)
  | .blob a, .blob b => compare a b
  | .date a, .date b => compare a.toInt b.toInt
  | .time a, .time b => compare a.toInt b.toInt
  | .timestamp a, .timestamp b => compare a.toInt b.toInt
  | _, _ => .eq

/-- The value with a negative zero made positive, as `==` and the encoding see it. -/
def RelationalValue.canonical : RelationalValue → RelationalValue
  | .real bits => .real (if floatOrder bits = 0 then 0 else bits)
  | .double bits => .double (if floatOrder bits = 0 then 0 else bits)
  | v => v

/-- The derived `PartialEq`: floating-point numbers are equal as numbers, and
not-a-number equals nothing. -/
def RelationalValue.same : RelationalValue → RelationalValue → Bool
  | .real a, .real b => !f32IsNan a && !f32IsNan b && floatOrder a == floatOrder b
  | .double a, .double b => !f64IsNan a && !f64IsNan b && floatOrder a == floatOrder b
  | a, b => a == b

end RubixDb
