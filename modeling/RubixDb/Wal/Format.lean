import RubixDb.Lib.Framing
import RubixDb.Wal.Ops

/-!
# WAL frames

`src/wal/format.rs` and the codec of `src/wal/ops.rs`: a record is written as
`length ‖ crc32c ‖ body` with `body = seq ‖ op ‖ op_body`, and read back by
`decode_wal_body`. The segment the frames stand in begins with a header of 24 bytes.

The checksum is a parameter. Every refusal is a `WalError` that carries the numbers the
source prints.
-/

namespace RubixDb

open Lib

def segmentHeaderLen : Nat := 24
def frameHeaderLen : Nat := 8

def opPut : UInt8 := 1
def opDelete : UInt8 := 2
def opCheckpointMarker : UInt8 := 3
def opEngineSwitch : UInt8 := 4
def opGroup : UInt8 := 5

def defaultMaxRecordLen : Nat := 64 * 1024 * 1024

/-- `b"RBXWALv1"`. -/
def segmentMagic : Bytes := [0x52, 0x42, 0x58, 0x57, 0x41, 0x4C, 0x76, 0x31]

/-- The format version is 1 and no flag is set. -/
def encodeSegmentHeader (segmentId : Nat) : Bytes :=
  segmentMagic ++ (leBytes 4 1 ++ (leBytes 8 segmentId ++ leBytes 4 0))

inductive WalError where
  | capacityExceeded (requested max : Nat)
  | bodyTooShort (got : Nat)
  | fieldHeaderTruncated
  | fieldTruncated (declared remaining : Nat)
  | integerTruncated (need got : Nat)
  | trailingBytes (op : UInt8) (count : Nat)
  | markerLength (got : Nat)
  | groupRanOut (declared decoded : Nat)
  | memberTag (tag : UInt8)
  | engineSwitch
  | unknownOp (tag : UInt8)
deriving DecidableEq, Repr

/-! ## Encoding -/

def checkedU32Len (n maxRecordLen : Nat) : Except WalError Nat :=
  if n ≤ u32Max then .ok n else .error (.capacityExceeded n maxRecordLen)

def writeLenPrefixed (maxRecordLen : Nat) (bytes : Bytes) : Except WalError Bytes := do
  let len ← checkedU32Len bytes.length maxRecordLen
  .ok (leBytes 4 len ++ bytes)

def encodeMember (maxRecordLen : Nat) : GroupMember → Except WalError Bytes
  | .put key value => do
    let k ← writeLenPrefixed maxRecordLen key
    let v ← writeLenPrefixed maxRecordLen value
    .ok (opPut :: (k ++ v))
  | .delete key => do
    let k ← writeLenPrefixed maxRecordLen key
    .ok (opDelete :: k)

def encodeMembers (maxRecordLen : Nat) : List GroupMember → Except WalError Bytes
  | [] => .ok []
  | m :: ms => do
    let b ← encodeMember maxRecordLen m
    let bs ← encodeMembers maxRecordLen ms
    .ok (b ++ bs)

/-- The closure `encode_wal_frame` hands to `encode_frame`: the op byte and what follows it. -/
def encodeOpBody (maxRecordLen : Nat) : WalOp → Except WalError (UInt8 × Bytes)
  | .put key value => do
    let k ← writeLenPrefixed maxRecordLen key
    let v ← writeLenPrefixed maxRecordLen value
    .ok (opPut, k ++ v)
  | .delete key => do
    let k ← writeLenPrefixed maxRecordLen key
    .ok (opDelete, k)
  | .checkpointMarker flushedThroughSeq =>
    .ok (opCheckpointMarker, leBytes 8 flushedThroughSeq)
  | .group members =>
    if u32Max < members.length then .error (.capacityExceeded members.length u32Max)
    else do
      let bs ← encodeMembers maxRecordLen members
      .ok (opGroup, leBytes 4 members.length ++ bs)

section Encode

variable (crc : Bytes → UInt32)

/-- `encode_frame`, given what its closure returned. -/
def encodeRecordFrame (seq maxRecordLen : Nat) (encoded : Except WalError (UInt8 × Bytes)) :
    Except WalError Bytes := do
  let (tag, opBody) ← encoded
  let bodyLen := 8 + 1 + opBody.length
  let effectiveMax := min maxRecordLen u32Max
  if effectiveMax < bodyLen then .error (.capacityExceeded bodyLen effectiveMax)
  else .ok (frame crc (leBytes 8 seq ++ tag :: opBody))

def encodeWalFrame (seq : Nat) (op : WalOp) (maxRecordLen : Nat) : Except WalError Bytes :=
  encodeRecordFrame crc seq maxRecordLen (encodeOpBody maxRecordLen op)

end Encode

/-! ## Decoding -/

def readU32Le (b : Bytes) : Except WalError Nat :=
  if b.length < 4 then .error (.integerTruncated 4 b.length) else .ok (leNat (b.take 4))

def readU64Le (b : Bytes) : Except WalError Nat :=
  if b.length < 8 then .error (.integerTruncated 8 b.length) else .ok (leNat (b.take 8))

def readLenPrefixed (buf : Bytes) : Except WalError (Bytes × Bytes) :=
  if buf.length < 4 then .error .fieldHeaderTruncated
  else
    let len := leNat (buf.take 4)
    let rest := buf.drop 4
    if rest.length < len then .error (.fieldTruncated len rest.length)
    else .ok (rest.take len, rest.drop len)

/-- One member of a group and what follows it. -/
def decodeMember (tag : UInt8) (rest : Bytes) : Except WalError (GroupMember × Bytes) :=
  if tag = opPut then do
    let (key, r1) ← readLenPrefixed rest
    let (value, r2) ← readLenPrefixed r1
    .ok (.put key value, r2)
  else if tag = opDelete then do
    let (key, r1) ← readLenPrefixed rest
    .ok (.delete key, r1)
  else .error (.memberTag tag)

/-- The loop over the announced members: `left` of `declared` are still to be read. -/
def decodeMembers (declared : Nat) : Nat → Bytes → Except WalError (List GroupMember × Bytes)
  | 0, rest => .ok ([], rest)
  | left + 1, rest =>
    match rest with
    | [] => .error (.groupRanOut declared (declared - (left + 1)))
    | tag :: rest => do
      let (m, rest) ← decodeMember tag rest
      let (ms, rest) ← decodeMembers declared left rest
      .ok (m :: ms, rest)

/-- Nothing may follow the last field of an op. -/
def finishOp (tag : UInt8) (rest : Bytes) (op : WalOp) : Except WalError WalOp :=
  if rest.isEmpty then .ok op else .error (.trailingBytes tag rest.length)

def decodeOp (tag : UInt8) (opBody : Bytes) : Except WalError WalOp :=
  if tag = opPut then do
    let (key, rest) ← readLenPrefixed opBody
    let (value, rest) ← readLenPrefixed rest
    finishOp tag rest (.put key value)
  else if tag = opDelete then do
    let (key, rest) ← readLenPrefixed opBody
    finishOp tag rest (.delete key)
  else if tag = opCheckpointMarker then
    if opBody.length ≠ 8 then .error (.markerLength opBody.length)
    else do
      let seq ← readU64Le opBody
      .ok (.checkpointMarker seq)
  else if tag = opGroup then do
    let declared ← readU32Le opBody
    let (members, rest) ← decodeMembers declared declared (opBody.drop 4)
    finishOp tag rest (.group members)
  else if tag = opEngineSwitch then .error .engineSwitch
  else .error (.unknownOp tag)

def decodeWalBody (body : Bytes) : Except WalError WalRecord :=
  if body.length < 9 then .error (.bodyTooShort body.length)
  else do
    let seq ← readU64Le body
    let op ← decodeOp ((body.drop 8).headD 0) (body.drop 9)
    .ok ⟨seq, op⟩

/-! ## What is written -/

def WalOp.Fits : WalOp → Prop
  | .checkpointMarker flushedThroughSeq => flushedThroughSeq ≤ u64Max
  | _ => True

/-- The integers of a record are `u64`s. -/
def WalRecord.Fits (r : WalRecord) : Prop := r.seq ≤ u64Max ∧ r.op.Fits

/-- A record together with the frame `encode_wal_frame` made of it. -/
structure WalFrame (crc : Bytes → UInt32) (maxRecordLen : Nat) where
  record : WalRecord
  bytes : Bytes
  fits : record.Fits
  encoded : encodeWalFrame crc record.seq record.op maxRecordLen = .ok bytes

/-- The frames one behind the other. -/
def segmentBody {crc : Bytes → UInt32} {maxRecordLen : Nat}
    (frames : List (WalFrame crc maxRecordLen)) : Bytes :=
  frames.flatMap (·.bytes)

end RubixDb
