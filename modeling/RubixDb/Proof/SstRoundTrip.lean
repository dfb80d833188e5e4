import RubixDb.Proof.SstWritten

/-!
# What is written to an SSTable reads back

The writer's file is the image of its blocks and its bloom filter, and opening it gives a
table that stores the records that were written. Lookups and scans over such a table are
those of the list itself.

The format has limits that no check of the writer enforces: the reader refuses a bloom
filter of more than 256 MiB and a record count no default filter of that size would serve.
A table beyond them is written and published, and can not be opened.
-/

namespace RubixDb.Proof

open Lib Sst List

/-! ## Opening the image -/

theorem readExactAt_append (front x rest : Bytes) :
    readExactAt (front ++ (x ++ rest)) front.length x.length = .ok x := by
  have hlen : ¬(front ++ (x ++ rest)).length < front.length + x.length := by
    rw [length_append, length_append]
    omega
  rw [readExactAt, if_neg hlen, drop_left, take_left]

theorem checkLayout_ok {f : Footer} {usableLen : Nat}
    (hindex : f.indexOffset = f.bloomOffset + f.bloomLength)
    (hend : f.indexOffset + f.indexLength = usableLen) (hmax : usableLen ≤ u64Max)
    (hcount : f.recordCount ≤ maxRecordCountForBloomCap defaultBloomBitsPerKey) :
    checkLayout f usableLen = .ok () := by
  unfold checkLayout
  rw [if_neg (by omega), if_neg (by omega), if_neg (by omega), if_neg (by omega),
    if_neg (not_not.mpr hindex), if_neg (not_not.mpr hend), if_neg (Nat.not_lt.mpr hcount)]

namespace Image

variable {crc : Bytes → UInt32} {image : Image}

theorem Fits.tiles (h : image.Fits crc) :
    Tiles (image.data crc).length 0 none (image.index crc) := by
  have htiles := tiles_indexFrom crc 0 none h.ne_nil h.storable h.blockLength
    h.ascend (fun _ hkey => by cases hkey)
  rwa [Nat.zero_add] at htiles

theorem Fits.length_blocks_le (h : image.Fits crc) :
    image.blocks.length ≤ maxRecordCountForBloomCap defaultBloomBitsPerKey :=
  (length_le_flatten h.ne_nil).trans h.count

theorem Fits.length_data_le (h : image.Fits crc) : (image.data crc).length ≤ 2 ^ 54 := by
  have hrecords := length_flatMap_recordBytes_le h.storable
  have hblocks := h.length_blocks_le
  have hcount := h.count
  have hcap : maxRecordCountForBloomCap defaultBloomBitsPerKey = 214748364 := by decide
  have hsize : 17 + maxKeySize + maxValueSize = 67174417 := by decide
  rw [hsize] at hrecords
  rw [data, length_flatMap_blockBytes]
  unfold records at hrecords hcount
  omega

theorem Fits.length_indexBytes_le (h : image.Fits crc) :
    (image.indexBytes crc).length ≤ 2 ^ 44 := by
  have hentries := length_flatMap_indexEntryBytes_le h.tiles
  have hblocks := h.length_blocks_le
  have hcap : maxRecordCountForBloomCap defaultBloomBitsPerKey = 214748364 := by decide
  have hkey : maxKeySize + 16 = 65552 := by decide
  have hcount : (image.index crc).length = image.blocks.length := length_indexFrom crc _ _
  rw [hkey] at hentries
  simp only [indexBytes, indexBlockBytes, length_append, length_leBytes]
  omega

theorem Fits.length_bloomBytes_le (h : image.Fits crc) :
    (image.bloomBytes crc).length ≤ 2 ^ 61 + 13 := by
  have hsized := h.sized
  have hbits := h.numBits
  unfold BloomFilter.Sized bytesFor at hsized
  unfold u64Max at hbits
  simp only [bloomBytes, encodeBloomBlock, length_append, length_cons, length_leBytes]
  omega

theorem Fits.footer (h : image.Fits crc) : FooterFits (image.footer crc) := by
  have hdata := h.length_data_le
  have hbloom := h.length_bloomBytes_le
  have hindex := h.length_indexBytes_le
  have hcount := h.count
  have hcap : maxRecordCountForBloomCap defaultBloomBitsPerKey ≤ u64Max := by decide
  have hmax : 2 ^ 63 ≤ u64Max := by decide
  exact ⟨rfl, h.minSeq, h.maxSeq, hcount.trans hcap, by simp only [Image.footer]; omega,
    by simp only [Image.footer]; omega, by simp only [Image.footer]; omega,
    by simp only [Image.footer]; omega⟩

theorem length_file : (image.file crc).length =
    (image.data crc).length + (image.bloomBytes crc).length + (image.indexBytes crc).length +
      footerSize := by
  simp only [file, length_append, length_encodeFooter]
  omega

theorem Fits.checkLayout_footer (h : image.Fits crc) :
    checkLayout (image.footer crc) ((image.file crc).length - footerSize) = .ok () := by
  have hdata := h.length_data_le
  have hbloom := h.length_bloomBytes_le
  have hindex := h.length_indexBytes_le
  have hmax : 2 ^ 63 ≤ u64Max := by decide
  rw [length_file]
  exact checkLayout_ok rfl rfl (by omega) h.count

/-- The table an open image is. -/
def table (crc : Bytes → UInt32) (image : Image) : Table :=
  ⟨image.file crc, image.footer crc, image.bloom, image.index crc⟩

/-- **Opening an image**: the reader refuses it for the size of its bloom filter or returns
the table it describes. -/
theorem Fits.openTable_file (h : image.Fits crc) :
    openTable crc (image.file crc) =
      if maxBloomBitArrayBytes < bytesFor image.bloom.numBits then
        raise (.capacityExceeded (bytesFor image.bloom.numBits) maxBloomBitArrayBytes)
      else .ok (image.table crc) := by
  have hdata := h.length_data_le
  have hindex := h.length_indexBytes_le
  have hblocks := h.length_blocks_le
  have hfile : image.file crc =
    (image.data crc ++ (image.bloomBytes crc ++ image.indexBytes crc)) ++
      encodeFooter crc (image.footer crc) := by
    simp only [file, append_assoc]
  -- each part is read back from where the footer has it
  have hbloomAt : readExactAt (image.file crc) (image.footer crc).bloomOffset
      (image.footer crc).bloomLength = .ok (image.bloomBytes crc) := readExactAt_append _ _ _
  have hindexAt : readExactAt (image.file crc) (image.footer crc).indexOffset
      (image.footer crc).indexLength = .ok (image.indexBytes crc) := by
    have hread := readExactAt_append (image.data crc ++ image.bloomBytes crc) (image.indexBytes crc)
      (encodeFooter crc (image.footer crc))
    rw [append_assoc, length_append] at hread
    exact hread
  have hentries : decodeIndexBlock crc (image.indexBytes crc) (image.footer crc).bloomOffset =
      .ok (image.index crc) := by
    have hcount : (image.index crc).length = image.blocks.length := length_indexFrom crc _ _
    have hcap : maxRecordCountForBloomCap defaultBloomBitsPerKey ≤ u32Max := by decide
    exact decodeIndexBlock_indexBlockBytes crc h.tiles (hdata.trans (by decide))
      (hcount ▸ hblocks.trans hcap) (hindex.trans (by decide))
  have hsize : footerSize ≤ (image.file crc).length := by
    rw [length_file]
    omega
  have hfooter : decodeFooter crc (image.file crc) = .ok (image.footer crc) := by
    rw [hfile]
    exact decodeFooter_encodeFooter crc _ h.footer
  rw [openTable, hfooter, ok_bind, checkedSub_eq hsize, ok_bind, h.checkLayout_footer, ok_bind,
    hbloomAt, ok_bind, bloomBytes, decodeBloomBlock_encodeBloomBlock crc h.sized h.numBits h.hashes]
  by_cases hbloom : maxBloomBitArrayBytes < bytesFor image.bloom.numBits
  · rw [if_pos hbloom, if_pos hbloom]
    rfl
  · rw [if_neg hbloom, if_neg hbloom, ok_bind, hindexAt, ok_bind, hentries]
    rfl

end Image

/-! ## The blocks of the image -/

/-- The index of consecutive blocks leads to them, wherever in the file they start. -/
theorem indexes_indexFrom {crc : Bytes → UInt32} {t : Table} {rest : Bytes}
    {blocks : List (List Entry)} (front : Bytes)
    (hfile : t.file = front ++ (blocks.flatMap (blockBytes crc) ++ rest))
    (hne : ∀ block ∈ blocks, block ≠ []) (hfit : ∀ e ∈ blocks.flatten, Storable e)
    (hlen : ∀ block ∈ blocks, (blockBytes crc block).length ≤ u32Max) :
    Indexes crc t (indexFrom crc front.length blocks) blocks := by
  induction blocks generalizing front with
  | nil => exact .nil
  | cons block blocks ih =>
    rw [flatMap_cons, append_assoc] at hfile
    have hread : t.readBlock crc ⟨lastKeyOf block, front.length, (blockBytes crc block).length⟩ =
        .ok (block.map decoded) := by
      rw [Table.readBlock, hfile, readExactAt_append]
      exact decodeBlock_blockBytes crc (fun e he => hfit e (mem_append_left _ he))
        (hlen block (by simp))
    have hrest := ih (front ++ blockBytes crc block)
      (by rw [hfile, append_assoc]) (fun x hx => hne x (mem_cons_of_mem _ hx))
      (fun x hx => hfit x (mem_append_right _ hx))
      (fun x hx => hlen x (mem_cons_of_mem _ hx))
    rw [length_append] at hrest
    exact .cons ⟨hne block (by simp), rfl, hread⟩ hrest

/-! ## The bloom filter never misses a key -/

/-- Probe `i` of a key with these hashes. -/
def probeBit (numBits h₁ h₂ i : Nat) : Nat := (h₁ + i * h₂) % 2 ^ 64 % numBits

section Bloom

variable {numBits h₁ h₂ : Nat}

theorem probeBit_inside (h₁ h₂ : Nat) {bits : Bytes} (hbits : numBits ≠ 0)
    (hsized : bits.length = bytesFor numBits) (i : Nat) :
    probeBit numBits h₁ h₂ i / 8 < bits.length := by
  have hlt : probeBit numBits h₁ h₂ i < numBits := Nat.mod_lt _ (Nat.pos_of_ne_zero hbits)
  unfold bytesFor at hsized
  omega

/-- The probe answers whether every one of its bits is set. -/
theorem probe_eq {b : Sst.BloomFilter} (hbits : b.numBits ≠ 0) (hsized : BloomFilter.Sized b) :
    ∀ left i, b.probe h₁ h₂ left i =
      .ok ((List.range' i left).all fun j => testBit b.bits (probeBit b.numBits h₁ h₂ j)) := by
  intro left
  induction left with
  | zero => intro i; rfl
  | succ left ih =>
    intro i
    have hbyte := probeBit_inside h₁ h₂ hbits hsized i
    unfold probeBit at hbyte
    rw [Sst.BloomFilter.probe, checkedRem_eq hbits, ok_bind, indexAt_eq hbyte, ok_bind, ih,
      range'_succ, all_cons, ← probeBit]
    cases testBit b.bits (probeBit b.numBits h₁ h₂ i) <;> rfl

theorem length_setProbes (left i : Nat) (bits : Bytes) :
    (setProbes numBits h₁ h₂ left i bits).length = bits.length := by
  induction left generalizing i bits with
  | zero => rfl
  | succ left ih => rw [setProbes, ih, length_setBit]

/-- A bit is set after an insertion if it was before or the insertion set it. -/
theorem testBit_setProbes (hbits : numBits ≠ 0) (j : Nat) (left i : Nat) {bits : Bytes}
    (hsized : bits.length = bytesFor numBits) :
    testBit (setProbes numBits h₁ h₂ left i bits) j =
      (testBit bits j || (List.range' i left).any fun k => probeBit numBits h₁ h₂ k == j) := by
  induction left generalizing i bits with
  | zero => rw [setProbes, range'_zero, any_nil, Bool.or_false]
  | succ left ih =>
    have hbyte := probeBit_inside h₁ h₂ hbits hsized i
    rw [setProbes, ih _ (by rw [length_setBit, hsized]), ← probeBit, testBit_setBit hbyte,
      range'_succ, Bool.or_assoc]
    rfl

end Bloom

/-- The filter has every probe of the key set. -/
def Marks (xxh64 : Bytes → Nat → UInt64) (b : Sst.BloomFilter) (key : Key) : Prop :=
  ∀ i ∈ List.range' 0 b.numHashFunctions,
    testBit b.bits (probeBit b.numBits (xxh64 key 0).toNat (xxh64 key 1).toNat i) = true

section Keys

variable {xxh64 : Bytes → Nat → UInt64} {b : Sst.BloomFilter}

theorem sized_insert (hsized : BloomFilter.Sized b) (key : Key) :
    BloomFilter.Sized (b.insert xxh64 key) := by
  unfold BloomFilter.Sized at hsized ⊢
  rw [Sst.BloomFilter.insert, length_setProbes]
  exact hsized

/-- An inserted key is marked, and no mark is lost. -/
theorem marks_insert (hbits : b.numBits ≠ 0) (hsized : BloomFilter.Sized b) {key key' : Key}
    (h : key' = key ∨ Marks xxh64 b key') : Marks xxh64 (b.insert xxh64 key) key' := by
  intro i hi
  rw [Sst.BloomFilter.insert, testBit_setProbes hbits _ _ _ hsized, Bool.or_eq_true]
  rcases h with rfl | hmark
  · exact .inr (any_eq_true.mpr ⟨i, hi, beq_self_eq_true _⟩)
  · exact .inl (hmark i hi)

/-- **All keys inserted are marked**, by induction on the insertions. -/
theorem insertKeys_marks (xxh64 : Bytes → Nat → UInt64) (es : List Entry) {b : Sst.BloomFilter}
    (hbits : b.numBits ≠ 0) (hsized : BloomFilter.Sized b) :
    BloomFilter.Sized (insertKeys xxh64 b es) ∧ (insertKeys xxh64 b es).numBits = b.numBits ∧
      (insertKeys xxh64 b es).numHashFunctions = b.numHashFunctions ∧
      ∀ key, (Marks xxh64 b key ∨ ∃ e ∈ es, e.key = key) →
        Marks xxh64 (insertKeys xxh64 b es) key := by
  induction es generalizing b with
  | nil =>
    refine ⟨hsized, rfl, rfl, ?_⟩
    rintro key (hmark | ⟨e, he, _⟩)
    · exact hmark
    · cases he
  | cons e es ih =>
    obtain ⟨hsized', hnum, hhash, hmarks⟩ :=
      ih (b := b.insert xxh64 e.key) hbits (sized_insert hsized e.key)
    refine ⟨hsized', hnum, hhash, ?_⟩
    rintro key (hmark | ⟨x, hx, hkey⟩)
    · exact hmarks key (.inl (marks_insert hbits hsized (.inr hmark)))
    · rcases mem_cons.mp hx with rfl | hx
      · exact hmarks key (.inl (marks_insert hbits hsized (.inl hkey.symm)))
      · exact hmarks key (.inr ⟨x, hx, hkey⟩)

theorem mightContain_of_marks (xxh64 : Bytes → Nat → UInt64) (hbits : b.numBits ≠ 0)
    (hsized : BloomFilter.Sized b) (key : Key) :
    ∃ maybe, b.mightContain xxh64 key = .ok maybe ∧ (Marks xxh64 b key → maybe = true) :=
  ⟨_, probe_eq hbits hsized _ _, fun hmark => all_eq_true.mpr hmark⟩

end Keys

/-! ## The file that is written -/

theorem bloomNumBits_ne_zero (expectedKeys bitsPerKey : Nat) :
    bloomNumBits expectedKeys bitsPerKey ≠ 0 := by
  unfold bloomNumBits
  dsimp only
  split <;> omega

theorem bloomNumBits_le (expectedKeys bitsPerKey : Nat) :
    bloomNumBits expectedKeys bitsPerKey ≤ u64Max := by
  unfold bloomNumBits
  dsimp only
  split
  · decide
  · exact Nat.min_le_left _ _

/-- The limits the writer works under: the blocks the records split into have a length the
index can hold, and there are no more records than the reader accepts. -/
structure WithinFormat (config : WriterConfig) (records : List Entry) : Prop where
  blocks : ∀ block ∈ splitBlocks config.targetBlockSize [] records,
    (block.flatMap recordBytes).length + 8 ≤ u32Max
  recordCount : records.length ≤ maxRecordCountForBloomCap defaultBloomBitsPerKey

/-- The reader accepts a filter for this many keys. -/
def BloomWithinFormat (config : WriterConfig) (entryCountHint : Nat) : Prop :=
  bytesFor (bloomNumBits (max entryCountHint 1) config.bloomBitsPerKey) ≤ maxBloomBitArrayBytes

section Write

variable (env : Env) (config : WriterConfig) (entryCountHint : Nat)

/-- The image of these records; the loop finds the sequence numbers of the footer. -/
def imageOf (records : List Entry) (minSeq maxSeq : Nat) : Image where
  blocks := splitBlocks config.targetBlockSize [] records
  bloom := insertKeys env.xxh64 (env.newBloom (max entryCountHint 1) config.bloomBitsPerKey) records
  minSeq := minSeq
  maxSeq := maxSeq

theorem records_imageOf (records : List Entry) (minSeq maxSeq : Nat) :
    (imageOf env config entryCountHint records minSeq maxSeq).records = records :=
  flatten_splitBlocks _ _ _

/-- The filter of the image has the size asked for and marks every key. -/
theorem bloom_imageOf (records : List Entry) (minSeq maxSeq : Nat) :
    BloomFilter.Sized (imageOf env config entryCountHint records minSeq maxSeq).bloom ∧
    (imageOf env config entryCountHint records minSeq maxSeq).bloom.numBits =
      bloomNumBits (max entryCountHint 1) config.bloomBitsPerKey ∧
    (imageOf env config entryCountHint records minSeq maxSeq).bloom.numHashFunctions < 256 ∧
    ∀ e ∈ records, Marks env.xxh64
      (imageOf env config entryCountHint records minSeq maxSeq).bloom e.key := by
  have hbits : (env.newBloom (max entryCountHint 1) config.bloomBitsPerKey).numBits ≠ 0 :=
    bloomNumBits_ne_zero _ _
  have hnew : BloomFilter.Sized (env.newBloom (max entryCountHint 1) config.bloomBitsPerKey) :=
    length_replicate
  obtain ⟨hsized, hnum, hhash, hmarks⟩ :=
    insertKeys_marks env.xxh64 records hbits hnew
  refine ⟨hsized, hnum, ?_, fun e he => hmarks e.key (.inr ⟨e, he, rfl⟩)⟩
  rw [imageOf, hhash]
  exact (env.hashCount config.bloomBitsPerKey).toNat_lt

variable {records : List Entry} {minSeq maxSeq : Nat}

theorem fits_imageOf (hsorted : SortedBy entryKey records) (hfit : ∀ e ∈ records, Storable e)
    (hformat : WithinFormat config records) (hmin : minSeq ≤ u64Max) (hmax : maxSeq ≤ u64Max) :
    (imageOf env config entryCountHint records minSeq maxSeq).Fits env.crc := by
  have hrecords := records_imageOf env config entryCountHint records minSeq maxSeq
  obtain ⟨hsized, hnum, hhash, _⟩ := bloom_imageOf env config entryCountHint records minSeq maxSeq
  exact {
    ne_nil := fun block hblock => ne_nil_of_mem_splitBlocks hblock
    storable := by rw [hrecords]; exact hfit
    blockLength := fun block hblock => by
      rw [length_blockBytes]
      exact hformat.blocks block hblock
    ascend := by rw [hrecords]; exact keysAscend_of_sorted hsorted
    count := by rw [hrecords]; exact hformat.recordCount
    sized := hsized
    numBits := by rw [hnum]; exact bloomNumBits_le _ _
    hashes := hhash
    minSeq := hmin
    maxSeq := hmax }

/-- **The file written is the image of the records.** -/
theorem writeFromSortedRecords_eq (hsorted : SortedBy entryKey records)
    (hfit : ∀ e ∈ records, Storable e) (hformat : WithinFormat config records) :
    ∃ minSeq maxSeq, minSeq ≤ u64Max ∧ maxSeq ≤ u64Max ∧
      env.writeFromSortedRecords config entryCountHint records =
        .ok ((imageOf env config entryCountHint records minSeq maxSeq).file env.crc) := by
  have hfits : ∀ {minSeq maxSeq}, minSeq ≤ u64Max → maxSeq ≤ u64Max →
      (imageOf env config entryCountHint records minSeq maxSeq).Fits env.crc :=
    fits_imageOf env config entryCountHint hsorted hfit hformat
  have hlen := (hfits (Nat.zero_le _) (Nat.zero_le _)).blockLength
  have hdata := (hfits (Nat.zero_le _) (Nat.zero_le _)).length_data_le.trans
    (by decide : 2 ^ 54 ≤ u64Max)
  -- the loop, started from nothing
  have hstart : Written env (env.newBloom (max entryCountHint 1) config.bloomBitsPerKey)
      ⟨{}, env.newBloom (max entryCountHint 1) config.bloomBitsPerKey, 0, none, none⟩ [] [] :=
    ⟨rfl, rfl, rfl, Nat.zero_le _, Nat.zero_le _⟩
  obtain ⟨st, done, current, hrun, hwritten, hblocks⟩ :=
    writeRecords_written hstart hfit hlen hdata
  rw [nil_append] at hblocks
  have hall : done.flatten ++ current = records := by
    have hsplit := congrArg List.flatten hblocks
    rwa [flatten_append, flatten_splitBlocks, append_nil, flatten_splitBlocks] at hsplit
  refine ⟨_, _, hwritten.minSeq, hwritten.maxSeq, ?_⟩
  have himage := hfits hwritten.minSeq hwritten.maxSeq
  have hlast := finishLastBlock_buildOf env.crc config.targetBlockSize done current
    (fun block hblock => hlen block (by
      rw [imageOf, ← hblocks]
      exact mem_append_right _ hblock))
    (by rw [hblocks]; exact hdata)
  have hindex := encodeIndexBlock_eq env.crc himage.tiles (by
    rw [Image.index, length_indexFrom]
    exact himage.length_blocks_le.trans (by decide))
  rw [Env.writeFromSortedRecords, hrun, ok_bind, Env.finishTable, hwritten.build, hlast, ok_bind,
    hblocks]
  have hindex' : encodeIndexBlock env.crc
      (buildOf env.crc (splitBlocks config.targetBlockSize [] records) []).index =
      .ok ((imageOf env config entryCountHint records (st.minSeq.getD 0)
        (st.maxSeq.getD 0)).indexBytes env.crc) := hindex
  rw [hindex', hwritten.bloom, hall, hwritten.totalRecords, hall]
  simp only [Image.file, Image.footer, records_imageOf]
  rfl

end Write

/-! ## The round trip -/

/-- Every read of the table is the read of the list: lookups find the newest version, existence
checks whether it is a put, and scans yield the records between their bounds in order. -/
structure ReadsAs (env : Env) (t : Table) (records : List Entry) : Prop where
  get : ∀ key asOf, t.getVersioned env.crc env.xxh64 key asOf =
    .ok ((best records key asOf).map fun e => (e.seq, e.value))
  contains : ∀ key asOf, t.containsVersioned env.crc env.xxh64 key asOf =
    .ok ((best records key asOf).map fun e => isPut e.value)
  scan : ∀ start stop, ScanYields env.crc t (t.rangeScan start stop)
    (records.filter (inBounds start stop))

theorem Image.Fits.stores {crc : Bytes → UInt32} {image : Image} (h : image.Fits crc)
    (xxh64 : Bytes → Nat → UInt64) (hbits : image.bloom.numBits ≠ 0)
    (hmarks : ∀ e ∈ image.records, Marks xxh64 image.bloom e.key) :
    Stores crc (image.table crc) xxh64 image.records where
  blocks := ⟨image.blocks, indexes_indexFrom [] rfl h.ne_nil h.storable h.blockLength, rfl⟩
  ascend := h.ascend
  bloom := fun key => by
    obtain ⟨maybe, hmaybe, htrue⟩ := mightContain_of_marks xxh64 hbits h.sized key
    refine ⟨maybe, hmaybe, ?_⟩
    rintro ⟨e, he, rfl⟩
    exact htrue (hmarks e he)

theorem Stores.readsAs {env : Env} {t : Table} {records : List Entry}
    (h : Stores env.crc t env.xxh64 records) : ReadsAs env t records where
  get := h.getVersioned_eq
  contains := h.containsVersioned_eq
  scan := fun start stop => (h.remaining start stop).yields

section RoundTrip

variable (env : Env) (config : WriterConfig) (entryCountHint : Nat) {records : List Entry}

theorem stores_imageOf {minSeq maxSeq : Nat}
    (himage : (imageOf env config entryCountHint records minSeq maxSeq).Fits env.crc) :
    Stores env.crc ((imageOf env config entryCountHint records minSeq maxSeq).table env.crc)
      env.xxh64 records := by
  obtain ⟨_, hnum, _, hmarks⟩ := bloom_imageOf env config entryCountHint records minSeq maxSeq
  have hrecords := records_imageOf env config entryCountHint records minSeq maxSeq
  have hstores := himage.stores env.xxh64 (hnum ▸ bloomNumBits_ne_zero _ _)
    (hrecords.symm ▸ hmarks)
  rwa [hrecords] at hstores

/-- **What is written within the format reads back**, whatever the block size, the bits per
key, the checksum and the hashes. -/
theorem written_table_reads_back (hsorted : SortedBy entryKey records)
    (hfit : ∀ e ∈ records, Storable e) (hformat : WithinFormat config records)
    (hbloom : BloomWithinFormat config entryCountHint) :
    ∃ file t, env.writeFromSortedRecords config entryCountHint records = .ok file ∧
      openTable env.crc file = .ok t ∧ ReadsAs env t records := by
  obtain ⟨minSeq, maxSeq, hmin, hmax, hwrite⟩ :=
    writeFromSortedRecords_eq env config entryCountHint hsorted hfit hformat
  have himage := fits_imageOf env config entryCountHint hsorted hfit hformat hmin hmax
  obtain ⟨_, hnum, _, _⟩ := bloom_imageOf env config entryCountHint records minSeq maxSeq
  have hopen := himage.openTable_file
  rw [hnum, if_neg (Nat.not_lt.mpr hbloom)] at hopen
  exact ⟨_, _, hwrite, hopen, (stores_imageOf env config entryCountHint himage).readsAs⟩

/-- Beyond the reader's limit on the bloom filter the file is written and refused. -/
theorem written_table_refused (hsorted : SortedBy entryKey records)
    (hfit : ∀ e ∈ records, Storable e) (hformat : WithinFormat config records)
    (hbloom : ¬BloomWithinFormat config entryCountHint) :
    ∃ file, env.writeFromSortedRecords config entryCountHint records = .ok file ∧
      openTable env.crc file = raise (.capacityExceeded
        (bytesFor (bloomNumBits (max entryCountHint 1) config.bloomBitsPerKey))
        maxBloomBitArrayBytes) := by
  obtain ⟨minSeq, maxSeq, hmin, hmax, hwrite⟩ :=
    writeFromSortedRecords_eq env config entryCountHint hsorted hfit hformat
  have himage := fits_imageOf env config entryCountHint hsorted hfit hformat hmin hmax
  obtain ⟨_, hnum, _, _⟩ := bloom_imageOf env config entryCountHint records minSeq maxSeq
  have hopen := himage.openTable_file
  rw [hnum, if_pos (Nat.not_le.mp hbloom)] at hopen
  exact ⟨_, hwrite, hopen⟩

end RoundTrip

/-! ## A few records -/

/-- A checksum and hashes to write with. -/
def plainEnv : Env := ⟨crc32c, fun _ _ => 0, fun _ => 7⟩

/-- A put of `k`. -/
def oneRecord : List Entry := [⟨[0x6B], 1, .put [0x76]⟩]

theorem storable_oneRecord : ∀ e ∈ oneRecord, Storable e := by
  intro e he
  rw [mem_singleton.mp he]
  exact ⟨by decide, by decide⟩

theorem withinFormat_oneRecord (bloomBitsPerKey : Nat) :
    WithinFormat ⟨4096, bloomBitsPerKey⟩ oneRecord := by
  have hblocks : ∀ block ∈ splitBlocks 4096 [] oneRecord,
      (block.flatMap recordBytes).length + 8 ≤ u32Max := by decide +kernel
  exact ⟨hblocks, by decide⟩

/-- With the largest number of bits per key a table of one record has a bloom filter of half a
GiB, which the reader refuses. -/
theorem largest_filter_refused : ∃ file,
    plainEnv.writeFromSortedRecords ⟨4096, u32Max⟩ 1 oneRecord = .ok file ∧
      openTable plainEnv.crc file =
        raise (.capacityExceeded (512 * 1024 * 1024) (256 * 1024 * 1024)) :=
  written_table_refused plainEnv ⟨4096, u32Max⟩ 1 (pairwise_singleton _ _) storable_oneRecord
    (withinFormat_oneRecord _) (by unfold BloomWithinFormat; decide)

/-- Three versions of `k`, the last of them a deletion, and a put of `l`. -/
def versionRecords : List Entry :=
  [⟨[0x6B], 1, .put [0x76]⟩, ⟨[0x6B], 2, .put [0x77]⟩, ⟨[0x6B], 5, .tombstone⟩,
    ⟨[0x6C], 3, .put []⟩]

/-- In blocks of two records the versions of `k` go over two blocks. -/
theorem versions_read_back : (splitBlocks 40 [] versionRecords).length = 2 ∧ ∃ file t,
    plainEnv.writeFromSortedRecords ⟨40, 10⟩ 4 versionRecords = .ok file ∧
      openTable plainEnv.crc file = .ok t ∧ ReadsAs plainEnv t versionRecords := by
  have hsorted : SortedBy entryKey versionRecords := by
    simp only [SortedBy, versionRecords, entryKey, Prod.Lex.toLex_lt_toLex]
    decide
  have hfit : ∀ e ∈ versionRecords, FitsTable e ∧ e.seq ≤ u64Max := by decide +kernel
  have hblocks : ∀ block ∈ splitBlocks 40 [] versionRecords,
      (block.flatMap recordBytes).length + 8 ≤ u32Max := by decide +kernel
  exact ⟨by decide +kernel, written_table_reads_back plainEnv ⟨40, 10⟩ 4 hsorted
    (fun e he => ⟨(hfit e he).1, (hfit e he).2⟩) ⟨hblocks, by decide⟩
    (by unfold BloomWithinFormat; decide)⟩

end RubixDb.Proof
