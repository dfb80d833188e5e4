import RubixDb.Lib.Framing
import RubixDb.Lib.Run
import RubixDb.Storage.MemTable

/-!
# Writing an SSTable

`src/sstable/format.rs` and the loop of `src/sstable/writer.rs`: records are encoded one
behind the other into blocks, a block is closed when it has reached the target size, and
an index names the last key of each block. Every key and value is checked against a fixed
maximum before it is written.

The bloom filter and the footer follow the same records and refuse nothing; they are left
out, as are the calls of the file system.
-/

namespace RubixDb

open Lib

def maxKeySize : Nat := 64 * 1024

/-- `wal::DEFAULT_MAX_RECORD_LEN`. -/
def maxValueSize : Nat := 64 * 1024 * 1024

/-- By the check that raises it: the first three are all `CapacityExceeded`, the last is
`Corruption`. Only the first is about the size of a record. -/
inductive SstError where
  /-- `checked_len`, on a record or on the last key of a block. -/
  | recordTooLarge (requested max : Nat)
  | blockTooLong (requested : Nat)
  | fileTooLong
  | tooManyBlocks
deriving DecidableEq, Repr

def checkedLen (len max : Nat) : Except SstError Unit :=
  if max < len then .error (.recordTooLarge len max) else .ok ()

/-- The op byte and the value bytes of a version. -/
def recordValue : MemtableValue → UInt8 × Bytes
  | .put v => (1, v)
  | .tombstone => (2, [])

def encodeRecord (e : Entry) : Except SstError Bytes := do
  let (op, value) := recordValue e.value
  checkedLen e.key.length maxKeySize
  checkedLen value.length maxValueSize
  .ok (leBytes 4 e.key.length ++
    (e.key ++ (leBytes 8 e.seq ++ op :: (leBytes 4 value.length ++ value))))

structure IndexEntry where
  lastKey : Key
  blockOffset : Nat
  blockLength : Nat
deriving DecidableEq, Repr

def encodeIndexEntry (entry : IndexEntry) : Except SstError Bytes := do
  checkedLen entry.lastKey.length maxKeySize
  .ok (leBytes 4 entry.lastKey.length ++ (entry.lastKey ++
    (leBytes 8 entry.blockOffset ++ leBytes 4 entry.blockLength)))

/-- What the writer has put down so far and the block it is filling. -/
structure TableBuild where
  data : Bytes := []
  index : List IndexEntry := []
  blockRecords : Bytes := []
  blockRecordCount : Nat := 0
  blockLastKey : Key := []

section Write

variable (crc : Bytes → UInt32)

def finalizeBlock (recordCount : Nat) (records : Bytes) : Bytes :=
  let body := leBytes 4 recordCount ++ records
  body ++ leBytes 4 (crc body).toNat

/-- `finalize_and_write_block`. -/
def finishBlock (b : TableBuild) : Except SstError TableBuild :=
  let block := finalizeBlock crc b.blockRecordCount b.blockRecords
  if u32Max < block.length then .error (.blockTooLong block.length)
  else if u64Max < b.data.length + block.length then .error .fileTooLong
  else .ok {
    data := b.data ++ block
    index := b.index ++ [⟨b.blockLastKey, b.data.length, block.length⟩] }

/-- One turn of the loop over the records. -/
def addRecord (targetBlockSize : Nat) (b : TableBuild) (e : Entry) :
    Except SstError TableBuild := do
  let bytes ← encodeRecord e
  let b := { b with
    blockRecords := b.blockRecords ++ bytes
    blockRecordCount := b.blockRecordCount + 1
    blockLastKey := e.key }
  if targetBlockSize ≤ b.blockRecords.length + 4 then finishBlock crc b else .ok b

def addRecords (targetBlockSize : Nat) (b : TableBuild) : List Entry → Except SstError TableBuild
  | [] => .ok b
  | e :: es => do
    let b ← addRecord crc targetBlockSize b e
    addRecords targetBlockSize b es

def encodeIndexEntries : List IndexEntry → Except SstError Bytes
  | [] => .ok []
  | entry :: entries => do
    let bytes ← encodeIndexEntry entry
    let rest ← encodeIndexEntries entries
    .ok (bytes ++ rest)

def encodeIndexBlock (entries : List IndexEntry) : Except SstError Bytes :=
  if u32Max < entries.length then .error .tooManyBlocks
  else do
    let bytes ← encodeIndexEntries entries
    let body := leBytes 4 entries.length ++ bytes
    .ok (body ++ leBytes 4 (crc body).toNat)

/-- The block still open after the last record, if there is one. -/
def finishLastBlock (b : TableBuild) : Except SstError TableBuild :=
  if 0 < b.blockRecordCount then finishBlock crc b else .ok b

/-- The data blocks and the index block `write_from_memtable` makes of a MemTable. -/
def encodeTable (targetBlockSize : Nat) (m : MemTable) : Except SstError (Bytes × Bytes) := do
  let b ← addRecords crc targetBlockSize {} (m.range .unbounded .unbounded)
  let b ← finishLastBlock crc b
  let index ← encodeIndexBlock crc b.index
  .ok (b.data, index)

end Write

end RubixDb
