import RubixDb.Catalog.Encoding

/-!
# Relational values

`src/relational/value.rs`: the SQL types and how one value is laid out inside a row.
Signed integers are bit vectors (`toInt` is their value), floating-point values their
IEEE bit patterns, so that `to_bits` and `from_bits` are the identity.
-/

namespace RubixDb

open Lib

inductive RelationalValue where
  | boolean (v : Bool)
  | integer (v : BitVec 32)
  | bigint (v : BitVec 64)
  | real (bits : BitVec 32)
  | double (bits : BitVec 64)
  | decimal (v : BitVec 128) (scale : UInt8)
  | text (v : String)
  | blob (v : Bytes)
  | date (v : BitVec 32)
  | time (v : BitVec 64)
  | timestamp (v : BitVec 64)
deriving DecidableEq

inductive RelationalType where
  | boolean
  | integer
  | bigint
  | real
  | double
  | decimal (scale : UInt8)
  | text
  | blob
  | date
  | time
  | timestamp
deriving DecidableEq, Repr

/-- One value for each column in ordinal order, `none` being `NULL`. -/
abbrev Row := List (Option RelationalValue)

def RelationalValue.valueType : RelationalValue → RelationalType
  | .boolean _ => .boolean
  | .integer _ => .integer
  | .bigint _ => .bigint
  | .real _ => .real
  | .double _ => .double
  | .decimal _ scale => .decimal scale
  | .text _ => .text
  | .blob _ => .blob
  | .date _ => .date
  | .time _ => .time
  | .timestamp _ => .timestamp

/-! ## Layout of one value -/

/-- `str::as_bytes`. -/
def utf8Bytes (s : String) : Bytes := s.toUTF8.data.toList

/-- `String::from_utf8`. -/
def fromUtf8 (raw : Bytes) : Option String := String.fromUTF8? raw.toByteArray

/-- The length, truncated to four bytes by `as u32`, and the bytes. -/
def encodeSized (raw : Bytes) : Bytes := leBytes 4 raw.length ++ raw

def encodeValue : RelationalValue → Bytes
  | .boolean v => [if v then 1 else 0]
  | .integer v => leBytes 4 v.toNat
  | .bigint v => leBytes 8 v.toNat
  | .real bits => leBytes 4 bits.toNat
  | .double bits => leBytes 8 bits.toNat
  | .decimal v scale => leBytes 16 v.toNat ++ [scale]
  | .text v => encodeSized (utf8Bytes v)
  | .blob v => encodeSized v
  | .date v => leBytes 4 v.toNat
  | .time v => leBytes 8 v.toNat
  | .timestamp v => leBytes 8 v.toNat

/-- A `bits`-bit integer in `width` bytes. -/
def readBits (bits width : Nat) (bytes : Bytes) (pos : Nat) :
    Except CatalogError (BitVec bits × Nat) := do
  let (n, pos) ← readLe width bytes pos
  .ok (BitVec.ofNat bits n, pos)

def readI32 := readBits 32 4
def readI64 := readBits 64 8
def readI128 := readBits 128 16

/-- `u32` length and that many bytes. -/
def readSized (bytes : Bytes) (pos : Nat) : Except CatalogError (Bytes × Nat) := do
  let (len, pos) ← readU32 bytes pos
  readBytes bytes pos len

def decodeValue (fieldType : RelationalType) (bytes : Bytes) (pos : Nat) :
    Except CatalogError (RelationalValue × Nat) :=
  match fieldType with
  | .boolean => do
    let (n, pos) ← readU8 bytes pos
    .ok (.boolean (n ≠ 0), pos)
  | .integer => do
    let (v, pos) ← readI32 bytes pos
    .ok (.integer v, pos)
  | .bigint => do
    let (v, pos) ← readI64 bytes pos
    .ok (.bigint v, pos)
  | .real => do
    let (bits, pos) ← readI32 bytes pos
    .ok (.real bits, pos)
  | .double => do
    let (bits, pos) ← readI64 bytes pos
    .ok (.double bits, pos)
  | .decimal _ => do
    let (v, pos) ← readI128 bytes pos
    let (scale, pos) ← readU8 bytes pos
    .ok (.decimal v (UInt8.ofNat scale), pos)
  | .text => do
    let (raw, pos) ← readSized bytes pos
    match fromUtf8 raw with
    | none => .error .textNotUtf8
    | some v => .ok (.text v, pos)
  | .blob => do
    let (raw, pos) ← readSized bytes pos
    .ok (.blob raw, pos)
  | .date => do
    let (v, pos) ← readI32 bytes pos
    .ok (.date v, pos)
  | .time => do
    let (v, pos) ← readI64 bytes pos
    .ok (.time v, pos)
  | .timestamp => do
    let (v, pos) ← readI64 bytes pos
    .ok (.timestamp v, pos)

/-! ## Rows of values -/

def encodeRow (schemaVersion : Nat) (fields : Row) : Bytes :=
  encodeRowEnvelope schemaVersion fields encodeValue

/-- `schema[i]` panics beyond the end; the envelope only asks for fields below
`schema.len()`, so the default is never used. -/
def decodeRow (bytes : Bytes) (schema : List RelationalType) : Except CatalogError (Nat × Row) :=
  decodeRowEnvelope bytes schema.length fun i bytes pos =>
    decodeValue (schema.getD i .boolean) bytes pos

end RubixDb
