import RubixDb.Lib.Framing
import RubixDb.Lib.PackedBits
import RubixDb.Storage.MemTable

/-!
# The row envelope

`src/catalog/encoding.rs`: a stored row is `format_version ‖ schema_version ‖
null_bitmap ‖ values`. The bitmap has one bit for each field the *writer* had; a
`NULL` field has its bit set and no bytes. Nothing in the bytes says how many fields
there are: `decode_row_envelope` sizes the bitmap from the number of fields the
*reader* expects.

The readers take the whole buffer and a position and return the position behind what
they read, as the source's `pos: &mut usize` does.
-/

namespace RubixDb

open Lib

/-- `usize::MAX` on a 64-bit target. -/
def usizeMax : Nat := 2 ^ 64 - 1

inductive CatalogError where
  | fieldLengthOverflow
  | rowTruncated (len pos : Nat)
  | unsupportedRowFormat (version : UInt8)
  | textNotUtf8
  | emptyName (kind : String)
  | nameTooLong (kind : String)
  | columnExists (name : String)
  | duplicateColumn (name : String)
  | tooManyColumns
  | noColumns
  | noPrimaryKey
  | pkOrdinalOutOfRange (ordinal columns : Nat)
  | pkNullable (ordinal : Nat) (name : String)
  | tableDropping (tableId : Nat)
deriving DecidableEq, Repr

/-! ## Readers -/

/-- Read `len` bytes at `pos`. -/
def readBytes (bytes : Bytes) (pos len : Nat) : Except CatalogError (Bytes × Nat) :=
  if usizeMax < pos + len then .error .fieldLengthOverflow
  else if bytes.length < pos + len then .error (.rowTruncated len pos)
  else .ok ((bytes.drop pos).take len, pos + len)

/-- A little-endian integer of `width` bytes. -/
def readLe (width : Nat) (bytes : Bytes) (pos : Nat) : Except CatalogError (Nat × Nat) := do
  let (raw, pos) ← readBytes bytes pos width
  .ok (leNat raw, pos)

def readU8 := readLe 1
def readU32 := readLe 4

/-! ## Rows -/

def rowFormatVersion : UInt8 := 1

def nullBitmapLen (columnCount : Nat) : Nat := (columnCount + 7) / 8

section Envelope

variable {T : Type}

/-- Set the bit of each `NULL` field, the first of `fields` being field `i`. -/
def markNulls (bitmap : Bytes) : List (Option T) → Nat → Bytes
  | [], _ => bitmap
  | none :: fields, i => markNulls (setBit bitmap i) fields (i + 1)
  | some _ :: fields, i => markNulls bitmap fields (i + 1)

def nullBitmap (fields : List (Option T)) : Bytes :=
  markNulls (List.replicate (nullBitmapLen fields.length) 0) fields 0

/-- The bytes of the fields that are not `NULL`, in order. -/
def encodeValues (encodeValue : T → Bytes) (fields : List (Option T)) : Bytes :=
  fields.flatMap fun field => field.elim [] encodeValue

def encodeRowEnvelope (schemaVersion : Nat) (fields : List (Option T))
    (encodeValue : T → Bytes) : Bytes :=
  rowFormatVersion :: (leBytes 4 schemaVersion ++
    (nullBitmap fields ++ encodeValues encodeValue fields))

/-- Fields `i`, `i + 1`, … of a row, `remaining` of them, from `pos` on. -/
def decodeFields (decodeValue : Nat → Nat → Except CatalogError (T × Nat)) (bitmap : Bytes) :
    Nat → Nat → Nat → Except CatalogError (List (Option T))
  | 0, _, _ => .ok []
  | remaining + 1, i, pos =>
    if testBit bitmap i then do
      let fields ← decodeFields decodeValue bitmap remaining (i + 1) pos
      .ok (none :: fields)
    else do
      let (value, pos) ← decodeValue i pos
      let fields ← decodeFields decodeValue bitmap remaining (i + 1) pos
      .ok (some value :: fields)

def decodeRowEnvelope (bytes : Bytes) (fieldCount : Nat)
    (decodeValue : Nat → Bytes → Nat → Except CatalogError (T × Nat)) :
    Except CatalogError (Nat × List (Option T)) := do
  let (formatVersion, pos) ← readU8 bytes 0
  if formatVersion ≠ rowFormatVersion.toNat then
    .error (.unsupportedRowFormat (UInt8.ofNat formatVersion))
  else do
    let (schemaVersion, pos) ← readU32 bytes pos
    let (bitmap, pos) ← readBytes bytes pos (nullBitmapLen fieldCount)
    let fields ← decodeFields (fun i pos => decodeValue i bytes pos) bitmap fieldCount 0 pos
    .ok (schemaVersion, fields)

end Envelope

end RubixDb
