import RubixDb.Proof.SstLookup
import RubixDb.Proof.SstSafety

/-!
# What the SSTable writer has written

The loop of `write_from_sorted_records` as a function of the records: `splitBlocks` says
where it closes a block, `indexFrom` which entry it makes for each, and `Written` is its
invariant. The file is then `fileOf` the blocks and the bloom filter, and `open` gives back
exactly the table that file describes, unless the filter or the record count is beyond what
the reader accepts.
-/

namespace RubixDb.Proof

open Lib Sst List

/-! ## The blocks -/

/-- Where the writer closes its blocks; `current` is the open one. -/
def splitBlocks (targetBlockSize : Nat) : List Entry → List Entry → List (List Entry)
  | current, [] => if current.isEmpty then [] else [current]
  | current, e :: es =>
    if targetBlockSize ≤ ((current ++ [e]).flatMap recordBytes).length + 4 then
      (current ++ [e]) :: splitBlocks targetBlockSize [] es
    else splitBlocks targetBlockSize (current ++ [e]) es

theorem flatten_splitBlocks (targetBlockSize : Nat) (es current : List Entry) :
    (splitBlocks targetBlockSize current es).flatten = current ++ es := by
  induction es generalizing current with
  | nil =>
    rw [splitBlocks, append_nil]
    split_ifs with hempty
    · rw [isEmpty_iff.mp hempty]
      rfl
    · exact flatten_singleton
  | cons e es ih =>
    rw [splitBlocks]
    split
    · rw [flatten_cons, ih, nil_append, append_assoc, singleton_append]
    · rw [ih, append_assoc, singleton_append]

theorem ne_nil_of_mem_splitBlocks {targetBlockSize : Nat} {es current block : List Entry}
    (hmem : block ∈ splitBlocks targetBlockSize current es) : block ≠ [] := by
  induction es generalizing current block with
  | nil =>
    rw [splitBlocks] at hmem
    split at hmem
    · cases hmem
    · rename_i hempty
      rw [mem_singleton.mp hmem]
      exact fun hnil => hempty (isEmpty_iff.mpr hnil)
  | cons e es ih =>
    rw [splitBlocks] at hmem
    split at hmem
    · rcases mem_cons.mp hmem with rfl | hmem
      · exact append_ne_nil_of_right_ne_nil _ (by simp)
      · exact ih hmem
    · exact ih hmem

section Written

variable (crc : Bytes → UInt32)

/-- The index entries of the blocks that follow one another from offset `off` on. -/
def indexFrom (off : Nat) : List (List Entry) → List IndexEntry
  | [] => []
  | block :: blocks =>
    ⟨lastKeyOf block, off, (blockBytes crc block).length⟩ ::
      indexFrom (off + (blockBytes crc block).length) blocks

theorem length_indexFrom (blocks : List (List Entry)) (off : Nat) :
    (indexFrom crc off blocks).length = blocks.length := by
  induction blocks generalizing off with
  | nil => rfl
  | cons block blocks ih => rw [indexFrom, length_cons, ih, length_cons]

theorem indexFrom_append_singleton (block : List Entry) (blocks : List (List Entry)) (off : Nat) :
    indexFrom crc off (blocks ++ [block]) = indexFrom crc off blocks ++
      [⟨lastKeyOf block, off + (blocks.flatMap (blockBytes crc)).length,
        (blockBytes crc block).length⟩] := by
  induction blocks generalizing off with
  | nil => rfl
  | cons b blocks ih =>
    rw [cons_append, indexFrom, ih, indexFrom, flatMap_cons, length_append,
      cons_append, Nat.add_assoc]

/-! ## The loop -/

/-- The writer's buffers after the blocks `done`, with `current` open. -/
def buildOf (done : List (List Entry)) (current : List Entry) : TableBuild where
  data := done.flatMap (blockBytes crc)
  index := indexFrom crc 0 done
  blockRecords := current.flatMap recordBytes
  blockRecordCount := current.length
  blockLastKey := lastKeyOf current

theorem finishBlock_buildOf {done : List (List Entry)} {current : List Entry}
    (hlen : (blockBytes crc current).length ≤ u32Max)
    (hdata : ((done ++ [current]).flatMap (blockBytes crc)).length ≤ u64Max) :
    finishBlock crc (buildOf crc done current) = .ok (buildOf crc (done ++ [current]) []) := by
  have hflat : (done ++ [current]).flatMap (blockBytes crc) =
      done.flatMap (blockBytes crc) ++ blockBytes crc current := by
    rw [flatMap_append, flatMap_singleton]
  rw [hflat, length_append] at hdata
  have hbytes : finalizeBlock crc (buildOf crc done current).blockRecordCount
      (buildOf crc done current).blockRecords = blockBytes crc current := rfl
  have hfile : ¬u64Max < (buildOf crc done current).data.length + (blockBytes crc current).length :=
    Nat.not_lt.mpr hdata
  rw [finishBlock, hbytes, if_neg (Nat.not_lt.mpr hlen), if_neg hfile, buildOf, buildOf, hflat,
    indexFrom_append_singleton, Nat.zero_add]
  rfl

theorem addRecord_buildOf (done : List (List Entry)) (current : List Entry) {e : Entry}
    (he : FitsTable e) (targetBlockSize : Nat) :
    addRecord crc targetBlockSize (buildOf crc done current) e =
      if targetBlockSize ≤ ((current ++ [e]).flatMap recordBytes).length + 4 then
        finishBlock crc (buildOf crc done (current ++ [e]))
      else .ok (buildOf crc done (current ++ [e])) := by
  have hbuild : { buildOf crc done current with
      blockRecords := (buildOf crc done current).blockRecords ++ recordBytes e
      blockRecordCount := (buildOf crc done current).blockRecordCount + 1
      blockLastKey := e.key } = buildOf crc done (current ++ [e]) := by
    unfold buildOf
    rw [lastKeyOf_append_singleton, flatMap_append, flatMap_singleton,
      length_append, length_singleton]
  rw [addRecord, encodeRecord_eq he, ok_bind, hbuild]
  rfl

/-- The open block is closed behind the last record, if there is one. -/
theorem finishLastBlock_buildOf (targetBlockSize : Nat) (done : List (List Entry))
    (current : List Entry)
    (hlen : ∀ block ∈ splitBlocks targetBlockSize current [],
      (blockBytes crc block).length ≤ u32Max)
    (hdata : ((done ++ splitBlocks targetBlockSize current []).flatMap (blockBytes crc)).length
      ≤ u64Max) :
    finishLastBlock crc (buildOf crc done current) =
      .ok (buildOf crc (done ++ splitBlocks targetBlockSize current []) []) := by
  rw [splitBlocks] at hlen hdata ⊢
  cases current with
  | nil =>
    rw [finishLastBlock, if_neg (by simp [buildOf])]
    simp
  | cons e current =>
    exact finishBlock_buildOf crc (hlen _ (by simp)) hdata

end Written

/-- The bloom filter after these keys. -/
def insertKeys (xxh64 : Bytes → Nat → UInt64) (b : Sst.BloomFilter) (es : List Entry) :
    Sst.BloomFilter :=
  es.foldl (fun b e => b.insert xxh64 e.key) b

theorem insertKeys_append_singleton (xxh64 : Bytes → Nat → UInt64) (b : Sst.BloomFilter)
    (es : List Entry) (e : Entry) :
    insertKeys xxh64 b (es ++ [e]) = (insertKeys xxh64 b es).insert xxh64 e.key := by
  rw [insertKeys, foldl_append]
  rfl

/-- **The invariant of the loop**: `done` are the blocks written, `current` the open one. -/
structure Written (env : Env) (bloom : Sst.BloomFilter) (st : WriterState)
    (done : List (List Entry)) (current : List Entry) : Prop where
  build : st.build = buildOf env.crc done current
  bloom : st.bloom = insertKeys env.xxh64 bloom (done.flatten ++ current)
  totalRecords : st.totalRecords = (done.flatten ++ current).length
  minSeq : st.minSeq.getD 0 ≤ u64Max
  maxSeq : st.maxSeq.getD 0 ≤ u64Max

section Run

variable {env : Env} {bloom : Sst.BloomFilter} {targetBlockSize : Nat}

/-- What a turn of the loop records beside its buffers, whether or not it closes the block. -/
theorem Written.add {st : WriterState} {done done' : List (List Entry)}
    {current current' : List Entry} {e : Entry} (h : Written env bloom st done current)
    (he : Storable e)
    (hadd : addRecord env.crc targetBlockSize st.build e = .ok (buildOf env.crc done' current'))
    (hsame : done'.flatten ++ current' = done.flatten ++ current ++ [e]) :
    ∃ st', env.writeRecord targetBlockSize st e = .ok st' ∧
      Written env bloom st' done' current' := by
  have hseq := he.seq
  refine ⟨_, by rw [Env.writeRecord, hadd, ok_bind], rfl, ?_, ?_, ?_, ?_⟩
  · rw [hsame, insertKeys_append_singleton, ← h.bloom]
  · rw [hsame, length_append, length_singleton, ← h.totalRecords]
  · cases hmin : st.minSeq with
    | none => exact hseq
    | some s => exact (Nat.min_le_right _ _).trans hseq
  · have hmax := h.maxSeq
    cases hold : st.maxSeq with
    | none => exact hseq
    | some s =>
      rw [hold] at hmax
      exact Nat.max_le.mpr ⟨hmax, hseq⟩

/-- **A whole run of the loop**: the blocks written and the open one make up the blocks the
records split into. -/
theorem writeRecords_written {es : List Entry} {st : WriterState} {done : List (List Entry)}
    {current : List Entry} (h : Written env bloom st done current) (hfit : ∀ e ∈ es, Storable e)
    (hlen : ∀ block ∈ splitBlocks targetBlockSize current es,
      (blockBytes env.crc block).length ≤ u32Max)
    (hdata : ((done ++ splitBlocks targetBlockSize current es).flatMap
      (blockBytes env.crc)).length ≤ u64Max) :
    ∃ st' done' current', env.writeRecords targetBlockSize st es = .ok st' ∧
      Written env bloom st' done' current' ∧
      done' ++ splitBlocks targetBlockSize current' [] =
        done ++ splitBlocks targetBlockSize current es := by
  induction es generalizing st done current with
  | nil => exact ⟨st, done, current, rfl, h, rfl⟩
  | cons e es ih =>
    have he := hfit e (by simp)
    have hfit' : ∀ x ∈ es, Storable x := fun x hx => hfit x (mem_cons_of_mem _ hx)
    have hadd := addRecord_buildOf env.crc done current he.fits targetBlockSize
    rw [← h.build] at hadd
    rw [splitBlocks] at hlen hdata ⊢
    by_cases hclose : targetBlockSize ≤ ((current ++ [e]).flatMap recordBytes).length + 4
    · -- the record closes its block
      rw [if_pos hclose] at hadd hlen hdata ⊢
      rw [append_cons] at hdata
      have hdata' : ((done ++ [current ++ [e]]).flatMap (blockBytes env.crc)).length ≤ u64Max := by
        rw [flatMap_append, length_append] at hdata
        omega
      rw [finishBlock_buildOf env.crc (hlen _ (by simp)) hdata'] at hadd
      obtain ⟨st', hst, hwritten⟩ := h.add he hadd (by simp)
      obtain ⟨st'', done', current', hrun, hend, hblocks⟩ := ih hwritten hfit'
        (fun block hb => hlen block (mem_cons_of_mem _ hb)) hdata
      refine ⟨st'', done', current', ?_, hend, hblocks.trans (append_cons _ _ _).symm⟩
      rw [Env.writeRecords, hst, ok_bind, hrun]
    · rw [if_neg hclose] at hadd hlen hdata ⊢
      obtain ⟨st', hst, hwritten⟩ := h.add he hadd (by simp)
      obtain ⟨st'', done', current', hrun, hend, hblocks⟩ := ih hwritten hfit' hlen hdata
      refine ⟨st'', done', current', ?_, hend, hblocks⟩
      rw [Env.writeRecords, hst, ok_bind, hrun]

end Run

/-! ## The file -/

/-- What a table file is made of. -/
structure Image where
  blocks : List (List Entry)
  bloom : Sst.BloomFilter
  minSeq : Nat
  maxSeq : Nat

namespace Image

variable (crc : Bytes → UInt32) (image : Image)

def records : List Entry := image.blocks.flatten

def data : Bytes := image.blocks.flatMap (blockBytes crc)

def bloomBytes : Bytes := encodeBloomBlock crc image.bloom

def index : List IndexEntry := indexFrom crc 0 image.blocks

def indexBytes : Bytes := indexBlockBytes crc (image.index crc)

def footer : Footer where
  formatVersion := Sst.formatVersion
  minSeq := image.minSeq
  maxSeq := image.maxSeq
  recordCount := image.records.length
  bloomOffset := (image.data crc).length
  bloomLength := (image.bloomBytes crc).length
  indexOffset := (image.data crc).length + (image.bloomBytes crc).length
  indexLength := (image.indexBytes crc).length

def file : Bytes :=
  image.data crc ++ (image.bloomBytes crc ++ (image.indexBytes crc ++
    encodeFooter crc (image.footer crc)))

/-- The parts of the file are within the limits of the format, the size of the bloom filter
apart. -/
structure Fits : Prop where
  ne_nil : ∀ block ∈ image.blocks, block ≠ []
  storable : ∀ e ∈ image.records, Storable e
  blockLength : ∀ block ∈ image.blocks, (blockBytes crc block).length ≤ u32Max
  ascend : KeysAscend image.records
  count : image.records.length ≤ maxRecordCountForBloomCap defaultBloomBitsPerKey
  sized : BloomFilter.Sized image.bloom
  numBits : image.bloom.numBits ≤ u64Max
  hashes : image.bloom.numHashFunctions < 256
  minSeq : image.minSeq ≤ u64Max
  maxSeq : image.maxSeq ≤ u64Max

end Image

/-! ## Sizes -/

/-- No record is longer than a key and a value of the largest size. -/
theorem length_flatMap_recordBytes_le {es : List Entry} (h : ∀ e ∈ es, Storable e) :
    (es.flatMap recordBytes).length ≤ es.length * (17 + maxKeySize + maxValueSize) := by
  induction es with
  | nil => exact Nat.zero_le _
  | cons e es ih =>
    obtain ⟨hkey, hvalue⟩ := (h e (by simp)).fits
    have hrest := ih fun x hx => h x (mem_cons_of_mem _ hx)
    rw [flatMap_cons, length_append, length_recordBytes, length_cons, Nat.succ_mul]
    omega

theorem length_le_flatten {blocks : List (List Entry)} (h : ∀ block ∈ blocks, block ≠ []) :
    blocks.length ≤ blocks.flatten.length := by
  induction blocks with
  | nil => exact Nat.le_refl _
  | cons block blocks ih =>
    have hpos := length_pos_of_ne_nil (h block (by simp))
    have hrest := ih fun x hx => h x (mem_cons_of_mem _ hx)
    rw [flatten_cons, length_append, length_cons]
    omega

theorem length_flatMap_blockBytes (crc : Bytes → UInt32) (blocks : List (List Entry)) :
    (blocks.flatMap (blockBytes crc)).length =
      (blocks.flatten.flatMap recordBytes).length + 8 * blocks.length := by
  induction blocks with
  | nil => rfl
  | cons block blocks ih =>
    rw [flatMap_cons, length_append, length_blockBytes, flatten_cons,
      flatMap_append, length_append, length_cons]
    omega

theorem length_lastKeyOf_le {block : List Entry} (h : ∀ e ∈ block, Storable e) :
    (lastKeyOf block).length ≤ maxKeySize := by
  obtain rfl | ⟨init, last, rfl⟩ := eq_nil_or_concat' block
  · exact Nat.zero_le _
  · rw [lastKeyOf_append_singleton]
    exact (h last (by simp)).fits.1

theorem length_flatMap_indexEntryBytes_le {dataLen off : Nat} {prev : Option Key}
    {entries : List IndexEntry} (h : Tiles dataLen off prev entries) :
    (entries.flatMap indexEntryBytes).length ≤ entries.length * (maxKeySize + 16) := by
  induction h with
  | nil => exact Nat.zero_le _
  | cons _ hkey _ _ _ ih =>
    rw [flatMap_cons, length_cons, Nat.succ_mul]
    simp only [indexEntryBytes, length_append, length_leBytes]
    omega

/-- The entries of consecutive blocks tile the data region. -/
theorem tiles_indexFrom (crc : Bytes → UInt32) {blocks : List (List Entry)} (off : Nat)
    (prev : Option Key) (hne : ∀ block ∈ blocks, block ≠ [])
    (hfit : ∀ e ∈ blocks.flatten, Storable e)
    (hlen : ∀ block ∈ blocks, (blockBytes crc block).length ≤ u32Max)
    (hasc : KeysAscend blocks.flatten) (hprev : ∀ key ∈ prev, ∀ e ∈ blocks.flatten, key ≤ e.key) :
    Tiles (off + (blocks.flatMap (blockBytes crc)).length) off prev (indexFrom crc off blocks) := by
  induction blocks generalizing off prev with
  | nil => exact .nil
  | cons block blocks ih =>
    have hblock : ∀ e ∈ block, Storable e := fun e he => hfit e (mem_append_left _ he)
    obtain ⟨e, he⟩ := exists_mem_of_ne_nil _ (hne block (by simp))
    have hlast : ∀ key ∈ prev, key ≤ lastKeyOf block := fun key hkey =>
      (hprev key hkey e (mem_append_left _ he)).trans
        (key_le_lastKeyOf (pairwise_append.mp hasc).1 he)
    have hrest := ih (off + (blockBytes crc block).length) (some (lastKeyOf block))
      (fun x hx => hne x (mem_cons_of_mem _ hx))
      (fun x hx => hfit x (mem_append_right _ hx))
      (fun x hx => hlen x (mem_cons_of_mem _ hx)) (pairwise_append.mp hasc).2.1 ?_
    · rw [flatMap_cons, length_append, ← Nat.add_assoc]
      exact .cons rfl (length_lastKeyOf_le hblock) (hlen block (by simp)) hlast hrest
    · intro key hkey x hx
      obtain rfl : lastKeyOf block = key := Option.some.inj hkey
      exact lastKeyOf_le hasc (hne block (by simp)) hx

end RubixDb.Proof
