import RubixDb.Storage.SstReader

/-!
# Writing an SSTable file

`write_from_sorted_records` of `src/sstable/writer.rs`: the data blocks of
`RubixDb.Storage.SstFormat`, then the bloom block, the index block and the footer. The
bloom filter is sized from a hint before the first record is read and takes the key of
every record.

The number of hash functions is computed in floating point and is a parameter, like the
checksum and the hashes. The calls of the file system are left out: the result is the
content of the file that is published.
-/

namespace RubixDb.Sst

open Lib

/-! ## The bloom filter -/

/-- The saturating product, at least 1. -/
def bloomNumBits (expectedKeys bitsPerKey : Nat) : Nat :=
  let n := min u64Max (expectedKeys * bitsPerKey)
  if n = 0 then 1 else n

/-- `insert`: the bits of probes `i`, `i + 1`, …, `left` of them. -/
def setProbes (numBits h₁ h₂ : Nat) : Nat → Nat → Bytes → Bytes
  | 0, _, bits => bits
  | left + 1, i, bits =>
    setProbes numBits h₁ h₂ left (i + 1) (setBit bits ((h₁ + i * h₂) % 2 ^ 64 % numBits))

def BloomFilter.insert (xxh64 : Bytes → Nat → UInt64) (b : BloomFilter) (key : Key) : BloomFilter :=
  { b with
    bits := setProbes b.numBits (xxh64 key 0).toNat (xxh64 key 1).toNat b.numHashFunctions 0
      b.bits }

/-! ## Blocks behind the data -/

section Encode

variable (crc : Bytes → UInt32)

def encodeBloomBlock (b : BloomFilter) : Bytes :=
  let body := leBytes 8 b.numBits ++ UInt8.ofNat b.numHashFunctions :: b.bits
  body ++ leBytes 4 (crc body).toNat

def encodeFooter (f : Footer) : Bytes :=
  let fields := magic ++ (leBytes 4 f.formatVersion ++ (leBytes 8 f.minSeq ++ (leBytes 8 f.maxSeq ++
    (leBytes 8 f.recordCount ++ (leBytes 8 f.bloomOffset ++ (leBytes 8 f.bloomLength ++
    (leBytes 8 f.indexOffset ++ leBytes 8 f.indexLength)))))))
  fields ++ leBytes 4 (crc fields).toNat

end Encode

/-! ## The writer -/

structure WriterConfig where
  targetBlockSize : Nat
  bloomBitsPerKey : Nat

/-- What `write_from_sorted_records` does not compute itself. -/
structure Env where
  crc : Bytes → UInt32
  xxh64 : Bytes → Nat → UInt64
  /-- `num_hash_functions_for`. -/
  hashCount : Nat → UInt8

def Env.newBloom (env : Env) (expectedKeys bitsPerKey : Nat) : BloomFilter where
  numBits := bloomNumBits expectedKeys bitsPerKey
  numHashFunctions := (env.hashCount bitsPerKey).toNat
  bits := List.replicate (bytesFor (bloomNumBits expectedKeys bitsPerKey)) 0

structure WriterState where
  build : TableBuild
  bloom : BloomFilter
  totalRecords : Nat
  minSeq : Option Nat
  maxSeq : Option Nat

/-- One turn of the loop over the records. -/
def Env.writeRecord (env : Env) (targetBlockSize : Nat) (st : WriterState) (e : Entry) :
    Except SstError WriterState := do
  let build ← addRecord env.crc targetBlockSize st.build e
  .ok {
    build
    bloom := st.bloom.insert env.xxh64 e.key
    totalRecords := st.totalRecords + 1
    minSeq := some (st.minSeq.elim e.seq fun s => min s e.seq)
    maxSeq := some (st.maxSeq.elim e.seq fun s => max s e.seq) }

def Env.writeRecords (env : Env) (targetBlockSize : Nat) (st : WriterState) :
    List Entry → Except SstError WriterState
  | [] => .ok st
  | e :: es => do
    let st ← env.writeRecord targetBlockSize st e
    env.writeRecords targetBlockSize st es

/-- The blocks behind the data and the footer that finds them. -/
def Env.finishTable (env : Env) (st : WriterState) : Except SstError Bytes := do
  let build ← finishLastBlock env.crc st.build
  let bloomBytes := encodeBloomBlock env.crc st.bloom
  let indexBytes ← encodeIndexBlock env.crc build.index
  let footer := encodeFooter env.crc {
    formatVersion := formatVersion
    minSeq := st.minSeq.getD 0
    maxSeq := st.maxSeq.getD 0
    recordCount := st.totalRecords
    bloomOffset := build.data.length
    bloomLength := bloomBytes.length
    indexOffset := build.data.length + bloomBytes.length
    indexLength := indexBytes.length }
  .ok (build.data ++ (bloomBytes ++ (indexBytes ++ footer)))

/-- The content of the published file. -/
def Env.writeFromSortedRecords (env : Env) (config : WriterConfig) (entryCountHint : Nat)
    (records : List Entry) : Except SstError Bytes := do
  let st ← env.writeRecords config.targetBlockSize {
    build := {}
    bloom := env.newBloom (max entryCountHint 1) config.bloomBitsPerKey
    totalRecords := 0
    minSeq := none
    maxSeq := none } records
  env.finishTable st

end RubixDb.Sst
