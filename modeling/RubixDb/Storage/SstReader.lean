import RubixDb.Catalog.Encoding
import RubixDb.Lib.Checked
import RubixDb.Storage.SstFormat

/-!
# Reading an SSTable

The decoders of `src/sstable/format.rs`, the probe of `src/sstable/bloom.rs` and
`src/sstable/reader.rs`. `open` takes the bytes of the file and checks footer, bloom block
and index block; a lookup asks the bloom filter, finds its blocks in the index and reads
them one by one; a range cursor walks the blocks from its start bound on.

Every call returns a value, an `EngineError` or panics. What could panic is written with
the operations of `Lib.Checked`; an allocation is not modelled. The checksum and the two
hashes of the bloom filter are parameters, the counters of the read path are left out.
-/

namespace RubixDb.Sst

open Lib

inductive EngineError where
  /-- A positional read that ends beyond the end of the file. -/
  | unexpectedEof
  | corruption (detail : String)
  | capacityExceeded (requested max : Nat)
  | unsupported (operation : String)
deriving DecidableEq, Repr

abbrev Result (α : Type) := Checked EngineError α

def corrupt {α : Type} (detail : String) : Result α := raise (.corruption detail)

/-- `checked_len`. -/
def boundedLen (len max : Nat) : Result Unit :=
  if max < len then raise (.capacityExceeded len max) else .ok ()

/-! ## Fields -/

/-- `len` bytes at `pos` and the position behind them; `need` is how the error names them. -/
def readSlice (buf : Bytes) (pos len : Nat) (what need : String) : Result (Bytes × Nat) :=
  if usizeMax < pos + len then corrupt (what ++ ": offset overflow")
  else if buf.length < pos + len then corrupt (what ++ ": truncated (need " ++ need ++ ")")
  else .ok ((buf.drop pos).take len, pos + len)

def readU32 (buf : Bytes) (pos : Nat) (what : String) : Result (Nat × Nat) := do
  let (raw, pos) ← readSlice buf pos 4 what "4 bytes for u32"
  .ok (leNat raw, pos)

def readU64 (buf : Bytes) (pos : Nat) (what : String) : Result (Nat × Nat) := do
  let (raw, pos) ← readSlice buf pos 8 what "8 bytes for u64"
  .ok (leNat raw, pos)

def readU8 (buf : Bytes) (pos : Nat) (what : String) : Result (UInt8 × Nat) :=
  match buf[pos]? with
  | none => corrupt (what ++ ": truncated (need 1 byte)")
  | some b => .ok (b, pos + 1)

def readBytes (buf : Bytes) (pos len : Nat) (what : String) : Result (Bytes × Nat) :=
  readSlice buf pos len what (toString len ++ " bytes")

/-- A block without its checksum, which has to match. -/
def checkedBody (crc : Bytes → UInt32) (minLen : Nat) (short mismatch : String) (buf : Bytes) :
    Result Bytes :=
  if buf.length < minLen then corrupt short
  else do
    let split ← checkedSub buf.length 4
    if (crc (buf.take split)).toNat ≠ leNat (buf.drop split) then corrupt mismatch
    else .ok (buf.take split)

/-! ## Data blocks -/

def opPut : UInt8 := 1
def opDelete : UInt8 := 2

structure DecodedRecord where
  key : Key
  seq : Nat
  op : UInt8
  value : Bytes
deriving DecidableEq, Repr

/-- A record as lookups and scans return it. -/
def DecodedRecord.entry (r : DecodedRecord) : Entry :=
  ⟨r.key, r.seq, if r.op = opPut then .put r.value else .tombstone⟩

/-- The value behind an op byte that has been read. -/
def decodeValue (buf : Bytes) (pos : Nat) (op : UInt8) : Result (Bytes × Nat) := do
  let (valueLen, pos) ← readU32 buf pos "record value_len"
  boundedLen valueLen maxValueSize
  if op = opDelete ∧ valueLen ≠ 0 then corrupt "record: DELETE op with non-zero value_len"
  else readBytes buf pos valueLen "record value"

def decodeRecord (buf : Bytes) (pos : Nat) : Result (DecodedRecord × Nat) := do
  let (keyLen, pos) ← readU32 buf pos "record key_len"
  boundedLen keyLen maxKeySize
  let (key, pos) ← readBytes buf pos keyLen "record key"
  let (seq, pos) ← readU64 buf pos "record seq"
  let (op, pos) ← readU8 buf pos "record op"
  if op ≠ opPut ∧ op ≠ opDelete then corrupt ("record: invalid op byte " ++ toString op.toNat)
  else do
    let (value, pos) ← decodeValue buf pos op
    .ok (⟨key, seq, op, value⟩, pos)

def decodeRecords (buf : Bytes) : Nat → Nat → Result (List DecodedRecord × Nat)
  | 0, pos => .ok ([], pos)
  | count + 1, pos => do
    let (r, pos) ← decodeRecord buf pos
    let (rs, pos) ← decodeRecords buf count pos
    .ok (r :: rs, pos)

/-- The rest of a buffer has to be empty. -/
def atEnd {α : Type} (buf : Bytes) (pos : Nat) (what items : String) (a : α) : Result α :=
  if pos ≠ buf.length then do
    let left ← checkedSub buf.length pos
    corrupt (what ++ ": " ++ toString left ++ " trailing byte(s) after declared " ++ items)
  else .ok a

section Decode

variable (crc : Bytes → UInt32)

def decodeBlock (buf : Bytes) : Result (List DecodedRecord) := do
  let body ← checkedBody crc 8 "block: shorter than minimum (record_count + checksum)"
    "block: checksum mismatch" buf
  let (recordCount, pos) ← readU32 body 0 "block record_count"
  let (records, pos) ← decodeRecords body recordCount pos
  atEnd body pos "block" "records" records

/-! ## The index block -/

def decodeIndexEntry (buf : Bytes) (pos : Nat) : Result (IndexEntry × Nat) := do
  let (lastKeyLen, pos) ← readU32 buf pos "index last_key_len"
  boundedLen lastKeyLen maxKeySize
  let (lastKey, pos) ← readBytes buf pos lastKeyLen "index last_key"
  let (blockOffset, pos) ← readU64 buf pos "index block_offset"
  let (blockLength, pos) ← readU32 buf pos "index block_length"
  .ok (⟨lastKey, blockOffset, blockLength⟩, pos)

/-- The loop over the entries: blocks follow one another without a gap, inside the data
region, and their last keys do not descend. -/
def decodeIndexEntries (buf : Bytes) (dataRegionLen : Nat) :
    Nat → Nat → Nat → Option Key → Result (List IndexEntry × Nat × Nat)
  | 0, pos, expectedOffset, _ => .ok ([], pos, expectedOffset)
  | count + 1, pos, expectedOffset, prev => do
    let (entry, pos) ← decodeIndexEntry buf pos
    if entry.blockOffset ≠ expectedOffset then
      corrupt ("index: block_offset is not contiguous with the preceding block " ++
        "(gap or overlap detected)")
    else if u64Max < entry.blockOffset + entry.blockLength then
      corrupt "index: block_offset + block_length overflow"
    else if dataRegionLen < entry.blockOffset + entry.blockLength then
      corrupt "index: block range extends past the data-block region"
    else if prev.any (entry.lastKey < ·) then corrupt "index: last_key is not ascending"
    else do
      let (entries, pos, expectedOffset) ← decodeIndexEntries buf dataRegionLen count pos
        (entry.blockOffset + entry.blockLength) (some entry.lastKey)
      .ok (entry :: entries, pos, expectedOffset)

def decodeIndexBlock (buf : Bytes) (dataRegionLen : Nat) : Result (List IndexEntry) := do
  let body ← checkedBody crc 8 "index: shorter than minimum (entry_count + checksum)"
    "index: checksum mismatch" buf
  let (entryCount, pos) ← readU32 body 0 "index entry_count"
  let (entries, pos, expectedOffset) ← decodeIndexEntries body dataRegionLen entryCount pos 0 none
  let entries ← atEnd body pos "index" "entries" entries
  if expectedOffset ≠ dataRegionLen then
    corrupt "index: declared blocks do not cover the entire data-block region"
  else .ok entries

/-! ## The bloom block -/

structure BloomFilter where
  numBits : Nat
  numHashFunctions : Nat
  bits : Bytes
deriving DecidableEq, Repr

def maxBloomBitArrayBytes : Nat := 256 * 1024 * 1024

/-- `n.div_ceil(8)`. -/
def bytesFor (numBits : Nat) : Nat := (numBits + 7) / 8

def decodeBloomBlock (buf : Bytes) : Result BloomFilter := do
  let body ← checkedBody crc (8 + 1 + 4) "bloom: shorter than minimum header + checksum"
    "bloom: checksum mismatch" buf
  let (numBits, pos) ← readU64 body 0 "bloom num_bits"
  let (numHashFunctions, pos) ← readU8 body pos "bloom num_hash_functions"
  boundedLen (bytesFor numBits) maxBloomBitArrayBytes
  let (bits, pos) ← readBytes body pos (bytesFor numBits) "bloom bits"
  if pos ≠ body.length then corrupt "bloom: trailing bytes after declared bit array"
  else .ok ⟨numBits, numHashFunctions.toNat, bits⟩

/-- The largest record count whose filter, at `bitsPerKey` bits a key, the reader accepts. -/
def maxRecordCountForBloomCap (bitsPerKey : Nat) : Nat :=
  if bitsPerKey = 0 then u64Max else maxBloomBitArrayBytes * 8 / bitsPerKey

def defaultBloomBitsPerKey : Nat := 10

/-! ## The footer -/

def footerSize : Nat := 72

/-- `b"RBXSST01"`. -/
def magic : Bytes := [0x52, 0x42, 0x58, 0x53, 0x53, 0x54, 0x30, 0x31]

def formatVersion : Nat := 1

structure Footer where
  formatVersion : Nat
  minSeq : Nat
  maxSeq : Nat
  recordCount : Nat
  bloomOffset : Nat
  bloomLength : Nat
  indexOffset : Nat
  indexLength : Nat
deriving DecidableEq, Repr

/-- `buf[i..i + len]` as an integer; the footer has its full size where this is used. -/
def footerField (buf : Bytes) (i len : Nat) : Nat := leNat ((buf.drop i).take len)

/-- The footer is the last `FOOTER_SIZE` bytes of the file. -/
def decodeFooter (file : Bytes) : Result Footer :=
  if file.length < footerSize then
    corrupt ("footer: file shorter than FOOTER_SIZE (" ++ toString file.length ++ " < " ++
      toString footerSize ++ ")")
  else
    let buf := file.drop (file.length - footerSize)
    let version := footerField buf 8 4
    if buf.take 8 ≠ magic then corrupt "footer: bad magic"
    else if version ≠ formatVersion then
      raise (.unsupported ("sstable format_version " ++ toString version))
    else if footerField buf 68 4 ≠ (crc (buf.take 68)).toNat then
      corrupt "footer: checksum mismatch"
    else .ok {
      formatVersion := version
      minSeq := footerField buf 12 8
      maxSeq := footerField buf 20 8
      recordCount := footerField buf 28 8
      bloomOffset := footerField buf 36 8
      bloomLength := footerField buf 44 8
      indexOffset := footerField buf 52 8
      indexLength := footerField buf 60 8 }

/-! ## An open table -/

/-- `read_exact_at`. -/
def readExactAt (file : Bytes) (offset len : Nat) : Result Bytes :=
  if file.length < offset + len then raise .unexpectedEof else .ok ((file.drop offset).take len)

structure Table where
  file : Bytes
  footer : Footer
  bloom : BloomFilter
  index : List IndexEntry

/-- Where the footer puts the bloom block and the index block. -/
def checkLayout (footer : Footer) (usableLen : Nat) : Result Unit :=
  let bloomEnd := footer.bloomOffset + footer.bloomLength
  let indexEnd := footer.indexOffset + footer.indexLength
  if u64Max < bloomEnd then corrupt "footer: bloom_offset + bloom_length overflow"
  else if usableLen < bloomEnd then corrupt "footer: bloom block extends past the file"
  else if u64Max < indexEnd then corrupt "footer: index_offset + index_length overflow"
  else if usableLen < indexEnd then corrupt "footer: index block extends past the file"
  else if footer.indexOffset ≠ bloomEnd then
    corrupt "footer: index block does not immediately follow the bloom block"
  else if indexEnd ≠ usableLen then
    corrupt "footer: index block does not end exactly at the footer"
  else if maxRecordCountForBloomCap defaultBloomBitsPerKey < footer.recordCount then
    corrupt ("footer: record_count " ++ toString footer.recordCount ++ " exceeds " ++
      toString (maxRecordCountForBloomCap defaultBloomBitsPerKey) ++
      ", the largest count whose bloom filter fits the " ++ toString maxBloomBitArrayBytes ++
      " byte reader limit")
  else .ok ()

/-- `SsTable::open` on the content of the file. -/
def openTable (file : Bytes) : Result Table := do
  let footer ← decodeFooter crc file
  let usableLen ← checkedSub file.length footerSize
  checkLayout footer usableLen
  let bloomBuf ← readExactAt file footer.bloomOffset footer.bloomLength
  let bloom ← decodeBloomBlock crc bloomBuf
  let indexBuf ← readExactAt file footer.indexOffset footer.indexLength
  let index ← decodeIndexBlock crc indexBuf footer.bloomOffset
  .ok ⟨file, footer, bloom, index⟩

def Table.readBlock (t : Table) (entry : IndexEntry) : Result (List DecodedRecord) := do
  let buf ← readExactAt t.file entry.blockOffset entry.blockLength
  decodeBlock crc buf

/-! ## Lookups -/

/-- `might_contain`: probes `i`, `i + 1`, …, `left` of them. -/
def BloomFilter.probe (b : BloomFilter) (h₁ h₂ : Nat) : Nat → Nat → Result Bool
  | 0, _ => .ok true
  | left + 1, i => do
    let bit ← checkedRem ((h₁ + i * h₂) % 2 ^ 64) b.numBits
    let _ ← indexAt b.bits (bit / 8)
    if testBit b.bits bit then b.probe h₁ h₂ left (i + 1) else .ok false

variable (xxh64 : Bytes → Nat → UInt64)

def BloomFilter.mightContain (b : BloomFilter) (key : Key) : Result Bool :=
  b.probe (xxh64 key 0).toNat (xxh64 key 1).toNat b.numHashFunctions 0

/-- The number of entries before the first that fails the test, which in an index in
order is where the test turns. -/
def partitionPoint (p : IndexEntry → Bool) (index : List IndexEntry) : Nat :=
  (index.takeWhile p).length

/-- The blocks from `idx` on that can hold the key: the next one too as long as a block
ends with it. `fuel` is the number of blocks. -/
def Table.candidates (t : Table) (key : Key) : Nat → Nat → Result (List IndexEntry)
  | 0, _ => .ok []
  | fuel + 1, idx => do
    let entry ← indexAt t.index idx
    if entry.lastKey = key ∧ idx + 1 < t.index.length then do
      let rest ← t.candidates key fuel (idx + 1)
      .ok (entry :: rest)
    else .ok [entry]

/-- The newest record so far, over the records of one block. -/
def pickRecords {β : Type} (key : Key) (asOfSeq : Nat) (value : DecodedRecord → β) :
    Option (Nat × β) → List DecodedRecord → Option (Nat × β)
  | best, [] => best
  | best, r :: rs =>
    if r.key = key ∧ r.seq ≤ asOfSeq ∧ best.all (·.1 < r.seq) then
      pickRecords key asOfSeq value (some (r.seq, value r)) rs
    else pickRecords key asOfSeq value best rs

def Table.pickBlocks {β : Type} (t : Table) (key : Key) (asOfSeq : Nat)
    (value : DecodedRecord → β) : Option (Nat × β) → List IndexEntry → Result (Option (Nat × β))
  | best, [] => .ok best
  | best, entry :: entries => do
    let records ← t.readBlock crc entry
    t.pickBlocks key asOfSeq value (pickRecords key asOfSeq value best records) entries

/-- What `get_versioned` and `contains_versioned` share; they differ in what they keep of
a record. -/
def Table.lookup {β : Type} (t : Table) (key : Key) (asOfSeq : Nat) (value : DecodedRecord → β) :
    Result (Option (Nat × β)) := do
  let maybe ← t.bloom.mightContain xxh64 key
  if !maybe then .ok none
  else if t.index.isEmpty then .ok none
  else
    let idx := partitionPoint (fun e => decide (e.lastKey < key)) t.index
    if t.index.length ≤ idx then .ok none
    else do
      let blocks ← t.candidates key t.index.length idx
      t.pickBlocks crc key asOfSeq value none blocks

def Table.getVersioned (t : Table) (key : Key) (asOfSeq : Nat) :
    Result (Option (Nat × MemtableValue)) :=
  t.lookup crc xxh64 key asOfSeq fun r => r.entry.value

def Table.containsVersioned (t : Table) (key : Key) (asOfSeq : Nat) : Result (Option Bool) := do
  let best ← t.lookup crc xxh64 key asOfSeq fun r => decide (r.op = opPut)
  .ok (best.map (·.2))

/-! ## Range cursors -/

/-- `RangeScanRaw` and `SsTableRangeCursor`, which differ in what they own. `blocks` are
the index entries from `next_block_idx` on. -/
structure Cursor where
  start : Bound Key
  stop : Bound Key
  blocks : List IndexEntry
  current : List DecodedRecord
  done : Bool

def Table.rangeScan (t : Table) (start stop : Bound Key) : Cursor :=
  let startBlock := match start with
    | .unbounded => 0
    | .included k => partitionPoint (fun e => decide (e.lastKey < k)) t.index
    | .excluded k => partitionPoint (fun e => decide (e.lastKey < k)) t.index
  ⟨start, stop, t.index.drop startBlock, [], decide (t.index.length ≤ startBlock)⟩

/-- What the records left of the current block say. -/
inductive BlockStep where
  | found (r : DecodedRecord) (rest : List DecodedRecord)
  | pastEnd
  | exhausted

def blockStep (start stop : Bound Key) : List DecodedRecord → BlockStep
  | [] => .exhausted
  | r :: rs =>
    if ¬start.admitsStart r.key then blockStep start stop rs
    else if ¬stop.admitsEnd r.key then .pastEnd
    else .found r rs

/-- One item of an iterator: none at its end. -/
abbrev Item (α : Type) := Option (Except EngineError α)

/-- The loop of `next` that refills the current block. -/
def Table.advance (t : Table) (start stop : Bound Key) :
    List IndexEntry → List DecodedRecord → Result (Item Entry × Cursor)
  | blocks, current =>
    match blockStep start stop current with
    | .found r rest => .ok (some (.ok r.entry), ⟨start, stop, blocks, rest, false⟩)
    | .pastEnd => .ok (none, ⟨start, stop, blocks, [], true⟩)
    | .exhausted =>
      match blocks with
      | [] => .ok (none, ⟨start, stop, [], [], true⟩)
      | entry :: blocks =>
        match t.readBlock crc entry with
        | .ok records => t.advance start stop blocks records
        | .error (.error e) => .ok (some (.error e), ⟨start, stop, blocks, [], true⟩)
        | .error .panicked => panicked

/-- `Iterator::next`. -/
def Table.next (t : Table) (c : Cursor) : Result (Item Entry × Cursor) :=
  if c.done then .ok (none, c) else t.advance crc c.start c.stop c.blocks c.current

end Decode

end RubixDb.Sst
