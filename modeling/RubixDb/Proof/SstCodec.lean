import RubixDb.Proof.FlushLimits
import RubixDb.Storage.SstWriter

/-!
# The blocks of an SSTable read back

Every decoder of `src/sstable/format.rs` gives back what its encoder was given, wherever in
a buffer it stands. `Stands buf pos rest` is what a decoder is told: the bytes from `pos` on
are `rest`. A decoder that finds its encoding there moves on to what is behind it, so the
fields of a record, the records of a block and the entries of the index are read by one
rule.

The encodings themselves are written down once without the writer's checks (`recordBytes`,
`blockBytes`, `indexEntryBytes`); for records that fit the format they are what the writer
produces.
-/

namespace RubixDb.Proof

open Lib Sst List

variable {buf rest : Bytes} {n pos dataLen off : Nat} {prev : Option Key}
    {entries : List IndexEntry}

/-! ## Standing in a buffer -/

/-- From `pos` on the buffer holds `rest`, and no offset into it overflows. -/
structure Stands (buf : Bytes) (pos : Nat) (rest : Bytes) : Prop where
  drop_eq : buf.drop pos = rest
  inside : pos ≤ buf.length
  small : buf.length ≤ usizeMax

theorem stands_zero (h : buf.length ≤ usizeMax) : Stands buf 0 buf :=
  ⟨rfl, Nat.zero_le _, h⟩

section Stands

variable {x : Bytes}

theorem Stands.length_eq (h : Stands buf pos rest) : buf.length = pos + rest.length := by
  have hlen := congrArg List.length h.drop_eq
  rw [length_drop] at hlen
  have := h.inside
  omega

/-- Behind `x`. -/
theorem Stands.skip (h : Stands buf pos (x ++ rest)) : Stands buf (pos + x.length) rest := by
  have hlen := h.length_eq
  rw [length_append] at hlen
  refine ⟨?_, by omega, h.small⟩
  rw [← drop_drop, h.drop_eq, drop_left]

theorem readSlice_stands (h : Stands buf pos (x ++ rest)) (what need : String) :
    readSlice buf pos x.length what need = .ok (x, pos + x.length) := by
  have hlen := h.length_eq
  have hsmall := h.small
  rw [length_append] at hlen
  rw [readSlice, if_neg (by omega), if_neg (by omega), h.drop_eq, take_left]

theorem readBytes_stands (h : Stands buf pos (x ++ rest)) (what : String) :
    Sst.readBytes buf pos x.length what = .ok (x, pos + x.length) :=
  readSlice_stands h what _

theorem readU32_stands (h : Stands buf pos (leBytes 4 n ++ rest)) (hn : n ≤ u32Max)
    (what : String) : Sst.readU32 buf pos what = .ok (n, pos + 4) := by
  have hread := readSlice_stands h what "4 bytes for u32"
  rw [length_leBytes] at hread
  rw [Sst.readU32, hread, ok_bind]
  dsimp only
  rw [leNat_leBytes (by unfold u32Max at hn; omega)]

theorem readU64_stands (h : Stands buf pos (leBytes 8 n ++ rest)) (hn : n ≤ u64Max)
    (what : String) : Sst.readU64 buf pos what = .ok (n, pos + 8) := by
  have hread := readSlice_stands h what "8 bytes for u64"
  rw [length_leBytes] at hread
  rw [Sst.readU64, hread, ok_bind]
  dsimp only
  rw [leNat_leBytes (by unfold u64Max at hn; omega)]

theorem readU8_stands {b : UInt8} (h : Stands buf pos (b :: rest)) (what : String) :
    Sst.readU8 buf pos what = .ok (b, pos + 1) := by
  have hget : buf[pos]? = some b := by
    have hdrop := congrArg (·[0]?) h.drop_eq
    simpa using hdrop
  rw [Sst.readU8, hget]

theorem Stands.skip_one {b : UInt8} (h : Stands buf pos (b :: rest)) : Stands buf (pos + 1) rest :=
  Stands.skip (x := [b]) h

theorem Stands.skip_leBytes {width : Nat} (h : Stands buf pos (leBytes width n ++ rest)) :
    Stands buf (pos + width) rest := by
  have hskip := h.skip
  rwa [length_leBytes] at hskip

/-- Nothing is left behind the last encoding. -/
theorem Stands.eq_end (h : Stands buf pos []) : pos = buf.length := by
  simpa using h.length_eq.symm

theorem atEnd_stands (h : Stands buf pos []) (what items : String) (a : α) :
    atEnd buf pos what items a = .ok a := by
  rw [atEnd, if_neg (not_not.mpr h.eq_end)]

end Stands

theorem boundedLen_ok {len max : Nat} (h : len ≤ max) : boundedLen len max = .ok () :=
  if_neg (Nat.not_lt.mpr h)

/-! ## Records -/

/-- A version as a record of a block. -/
def decoded (e : Entry) : DecodedRecord :=
  ⟨e.key, e.seq, (recordValue e.value).1, (recordValue e.value).2⟩

theorem entry_decoded (e : Entry) : (decoded e).entry = e := by
  obtain ⟨key, seq, value⟩ := e
  cases value <;> rfl

theorem key_decoded (e : Entry) : (decoded e).key = e.key := rfl

def recordBytes (e : Entry) : Bytes :=
  leBytes 4 e.key.length ++ (e.key ++ (leBytes 8 e.seq ++ (recordValue e.value).1 ::
    (leBytes 4 (recordValue e.value).2.length ++ (recordValue e.value).2)))

/-- The version fits the format, its sequence number included. -/
structure Storable (e : Entry) : Prop where
  fits : FitsTable e
  seq : e.seq ≤ u64Max

theorem encodeRecord_eq {e : Entry} (h : FitsTable e) : encodeRecord e = .ok (recordBytes e) := by
  obtain ⟨hkey, hvalue⟩ := h
  unfold encodeRecord checkedLen
  simp only [length_recordValue]
  rw [if_neg (Nat.not_lt.mpr hkey), if_neg (Nat.not_lt.mpr hvalue)]
  simp only [recordBytes, length_recordValue]
  rfl

theorem length_recordBytes (e : Entry) :
    (recordBytes e).length = 17 + e.key.length + e.value.payloadLen := by
  simp only [recordBytes, length_append, length_cons, length_leBytes, length_recordValue]
  omega

theorem decodeValue_stands (v : MemtableValue) (hv : v.payloadLen ≤ maxValueSize)
    (h : Stands buf pos (leBytes 4 (recordValue v).2.length ++ ((recordValue v).2 ++ rest))) :
    Sst.decodeValue buf pos (recordValue v).1 =
      .ok ((recordValue v).2, pos + 4 + (recordValue v).2.length) := by
  rw [← length_recordValue] at hv
  have hop : ¬((recordValue v).1 = Sst.opDelete ∧ (recordValue v).2.length ≠ 0) := by
    cases v with
    | put value => exact fun hboth => absurd (show (1 : UInt8) = 2 from hboth.1) (by decide)
    | tombstone => exact fun hboth => hboth.2 rfl
  rw [Sst.decodeValue, readU32_stands h (hv.trans (by decide)), ok_bind]
  dsimp only
  rw [boundedLen_ok hv, ok_bind, if_neg hop, readBytes_stands h.skip_leBytes]

/-- **A record reads back** and leaves the reader behind it. -/
theorem decodeRecord_stands {e : Entry} (he : Storable e)
    (h : Stands buf pos (recordBytes e ++ rest)) :
    decodeRecord buf pos = .ok (decoded e, pos + (recordBytes e).length) := by
  obtain ⟨⟨hkey, hvalue⟩, hseq⟩ := he
  have hop : ¬((recordValue e.value).1 ≠ Sst.opPut ∧ (recordValue e.value).1 ≠ Sst.opDelete) := by
    cases e.value with
    | put value => exact fun hboth => hboth.1 rfl
    | tombstone => exact fun hboth => hboth.2 rfl
  have hlen := length_recordBytes e
  unfold recordBytes at h
  simp only [append_assoc, cons_append] at h
  rw [decodeRecord, readU32_stands h (hkey.trans (by decide)), ok_bind]
  dsimp only
  rw [boundedLen_ok hkey, ok_bind, readBytes_stands h.skip_leBytes, ok_bind]
  have hseqPos := h.skip_leBytes.skip
  rw [readU64_stands hseqPos hseq, ok_bind]
  have hopPos := hseqPos.skip_leBytes
  rw [readU8_stands hopPos, ok_bind]
  rw [if_neg hop, decodeValue_stands _ hvalue hopPos.skip_one, ok_bind, length_recordValue]
  congr 2
  omega

theorem decodeRecords_stands {es : List Entry} {pos : Nat} (hes : ∀ e ∈ es, Storable e)
    (h : Stands buf pos (es.flatMap recordBytes ++ rest)) :
    decodeRecords buf es.length pos =
      .ok (es.map decoded, pos + (es.flatMap recordBytes).length) := by
  induction es generalizing pos with
  | nil => rfl
  | cons e es ih =>
    rw [flatMap_cons, append_assoc] at h
    rw [length_cons, decodeRecords, decodeRecord_stands (hes e (by simp)) h, ok_bind]
    dsimp only
    rw [ih (fun x hx => hes x (mem_cons_of_mem _ hx)) h.skip, flatMap_cons,
      length_append, ← Nat.add_assoc]
    rfl

/-! ## Data blocks -/

section Blocks

variable (crc : Bytes → UInt32)

theorem checkedBody_eq (body : Bytes) {minLen : Nat} (hmin : minLen ≤ body.length + 4)
    (short mismatch : String) :
    checkedBody crc minLen short mismatch (body ++ leBytes 4 (crc body).toNat) = .ok body := by
  have hlen : (body ++ leBytes 4 (crc body).toNat).length = body.length + 4 := by simp
  rw [checkedBody, hlen, if_neg (Nat.not_lt.mpr hmin), checkedSub_eq (by omega), ok_bind,
    Nat.add_sub_cancel, take_left, drop_left, leNat_leBytes (crc body).toNat_lt,
    if_neg (not_not.mpr rfl)]

def blockBytes (block : List Entry) : Bytes :=
  finalizeBlock crc block.length (block.flatMap recordBytes)

theorem length_blockBytes (block : List Entry) :
    (blockBytes crc block).length = (block.flatMap recordBytes).length + 8 := by
  simp only [blockBytes, finalizeBlock, length_append, length_leBytes]
  omega

/-- A record takes at least a byte, so the record count of a block fits where its length does. -/
theorem length_le_flatMap_recordBytes (block : List Entry) :
    block.length ≤ (block.flatMap recordBytes).length := by
  induction block with
  | nil => exact Nat.zero_le _
  | cons e block ih =>
    rw [flatMap_cons, length_append, length_cons, length_recordBytes]
    omega

/-- **A block reads back.** -/
theorem decodeBlock_blockBytes {block : List Entry} (hfit : ∀ e ∈ block, Storable e)
    (hlen : (blockBytes crc block).length ≤ u32Max) :
    decodeBlock crc (blockBytes crc block) = .ok (block.map decoded) := by
  rw [length_blockBytes] at hlen
  have hcount := length_le_flatMap_recordBytes block
  have hbody : (leBytes 4 block.length ++ block.flatMap recordBytes).length =
      (block.flatMap recordBytes).length + 4 := by
    rw [length_append, length_leBytes, Nat.add_comm]
  have hstart : Stands (leBytes 4 block.length ++ block.flatMap recordBytes) 0
      (leBytes 4 block.length ++ (block.flatMap recordBytes ++ [])) := by
    rw [append_nil]
    exact stands_zero (by rw [hbody]; unfold u32Max at hlen; unfold usizeMax; omega)
  rw [decodeBlock, blockBytes, finalizeBlock, checkedBody_eq crc _ (by rw [hbody]; omega), ok_bind,
    readU32_stands hstart (by omega), ok_bind]
  dsimp only
  rw [decodeRecords_stands hfit hstart.skip_leBytes, ok_bind]
  exact atEnd_stands hstart.skip_leBytes.skip _ _ _

/-! ## The index block -/

def indexEntryBytes (entry : IndexEntry) : Bytes :=
  leBytes 4 entry.lastKey.length ++ (entry.lastKey ++
    (leBytes 8 entry.blockOffset ++ leBytes 4 entry.blockLength))

/-- The entries lead from offset `off` to the end of the data region without a gap, and
their last keys do not descend, `prev` being the one before. -/
inductive Tiles (dataLen : Nat) : Nat → Option Key → List IndexEntry → Prop where
  | nil {prev : Option Key} : Tiles dataLen dataLen prev []
  | cons {off : Nat} {prev : Option Key} {entry : IndexEntry} {entries : List IndexEntry} :
      entry.blockOffset = off → entry.lastKey.length ≤ maxKeySize → entry.blockLength ≤ u32Max →
      (∀ key ∈ prev, key ≤ entry.lastKey) →
      Tiles dataLen (off + entry.blockLength) (some entry.lastKey) entries →
      Tiles dataLen off prev (entry :: entries)

theorem Tiles.le (h : Tiles dataLen off prev entries) : off ≤ dataLen := by
  induction h with
  | nil => exact Nat.le_refl _
  | cons _ _ _ _ _ ih => omega

theorem encodeIndexEntries_eq (h : Tiles dataLen off prev entries) :
    encodeIndexEntries entries = .ok (entries.flatMap indexEntryBytes) := by
  induction h with
  | nil => rfl
  | cons _ hkey _ _ _ ih =>
    rw [encodeIndexEntries, encodeIndexEntry, checkedLen, if_neg (Nat.not_lt.mpr hkey), ih]
    rfl

theorem decodeIndexEntry_stands {entry : IndexEntry} (hkey : entry.lastKey.length ≤ maxKeySize)
    (hoff : entry.blockOffset ≤ u64Max) (hlen : entry.blockLength ≤ u32Max)
    (h : Stands buf pos (indexEntryBytes entry ++ rest)) :
    decodeIndexEntry buf pos = .ok (entry, pos + (indexEntryBytes entry).length) := by
  have hsize : (indexEntryBytes entry).length = entry.lastKey.length + 16 := by
    simp only [indexEntryBytes, length_append, length_leBytes]
    omega
  unfold indexEntryBytes at h
  simp only [append_assoc] at h
  rw [decodeIndexEntry, readU32_stands h (hkey.trans (by decide)), ok_bind]
  dsimp only
  rw [boundedLen_ok hkey, ok_bind, readBytes_stands h.skip_leBytes, ok_bind]
  have hoffPos := h.skip_leBytes.skip
  rw [readU64_stands hoffPos hoff, ok_bind]
  rw [readU32_stands hoffPos.skip_leBytes hlen, ok_bind]
  congr 2
  omega

theorem decodeIndexEntries_stands (ht : Tiles dataLen off prev entries) (hmax : dataLen ≤ u64Max) :
    ∀ {pos : Nat}, Stands buf pos (entries.flatMap indexEntryBytes ++ rest) →
      decodeIndexEntries buf dataLen entries.length pos off prev =
        .ok (entries, pos + (entries.flatMap indexEntryBytes).length, dataLen) := by
  induction ht with
  | nil => intro _ _; rfl
  | @cons off prev entry entries hoff hkey hlen hprev hrest ih =>
    intro pos h
    have hend := hrest.le
    have hasc : ¬prev.any (entry.lastKey < ·) = true := by
      cases prev with
      | none => exact fun hany => by cases hany
      | some key =>
        have hle := hprev key rfl
        simpa using hle
    rw [flatMap_cons, append_assoc] at h
    rw [length_cons, decodeIndexEntries, decodeIndexEntry_stands hkey (by omega) hlen h,
      ok_bind]
    dsimp only
    rw [if_neg (not_not.mpr hoff), if_neg (by omega), if_neg (by omega), if_neg hasc, hoff,
      ih h.skip, ok_bind, flatMap_cons, length_append, ← Nat.add_assoc]

def indexBlockBytes (entries : List IndexEntry) : Bytes :=
  let body := leBytes 4 entries.length ++ entries.flatMap indexEntryBytes
  body ++ leBytes 4 (crc body).toNat

theorem encodeIndexBlock_eq (h : Tiles dataLen 0 none entries) (hcount : entries.length ≤ u32Max) :
    encodeIndexBlock crc entries = .ok (indexBlockBytes crc entries) := by
  rw [encodeIndexBlock, if_neg (Nat.not_lt.mpr hcount), encodeIndexEntries_eq h]
  rfl

/-- **The index reads back** when its blocks tile the data region. -/
theorem decodeIndexBlock_indexBlockBytes (h : Tiles dataLen 0 none entries)
    (hmax : dataLen ≤ u64Max) (hcount : entries.length ≤ u32Max)
    (hsize : (indexBlockBytes crc entries).length ≤ usizeMax) :
    decodeIndexBlock crc (indexBlockBytes crc entries) dataLen = .ok entries := by
  have hstart : Stands (leBytes 4 entries.length ++ entries.flatMap indexEntryBytes) 0
      (leBytes 4 entries.length ++ (entries.flatMap indexEntryBytes ++ [])) := by
    rw [append_nil]
    refine stands_zero (le_trans ?_ hsize)
    exact (sublist_append_left _ _).length_le
  have hmin : 8 ≤ (leBytes 4 entries.length ++ entries.flatMap indexEntryBytes).length + 4 := by
    rw [length_append, length_leBytes]
    omega
  rw [decodeIndexBlock, indexBlockBytes, checkedBody_eq crc _ hmin, ok_bind,
    readU32_stands hstart hcount, ok_bind]
  dsimp only
  rw [decodeIndexEntries_stands h hmax hstart.skip_leBytes, ok_bind]
  rw [atEnd_stands hstart.skip_leBytes.skip, ok_bind, if_neg (not_not.mpr rfl)]

/-! ## The bloom block and the footer -/

/-- What the decoder makes of the encoding of a filter: the filter, or an error when its bit
array is longer than the reader accepts. -/
theorem decodeBloomBlock_encodeBloomBlock {b : Sst.BloomFilter}
    (hsized : b.bits.length = bytesFor b.numBits) (hbits : b.numBits ≤ u64Max)
    (hhash : b.numHashFunctions < 256) :
    decodeBloomBlock crc (encodeBloomBlock crc b) =
      if maxBloomBitArrayBytes < bytesFor b.numBits then
        raise (.capacityExceeded (bytesFor b.numBits) maxBloomBitArrayBytes)
      else .ok b := by
  have hbody : (leBytes 8 b.numBits ++ UInt8.ofNat b.numHashFunctions :: b.bits).length =
      b.bits.length + 9 := by
    rw [length_append, length_leBytes, length_cons]
    omega
  have hstart : Stands (leBytes 8 b.numBits ++ UInt8.ofNat b.numHashFunctions :: b.bits) 0
      (leBytes 8 b.numBits ++ UInt8.ofNat b.numHashFunctions :: (b.bits ++ [])) := by
    rw [append_nil]
    refine stands_zero ?_
    rw [hbody, hsized]
    unfold bytesFor usizeMax
    unfold u64Max at hbits
    omega
  have hmin : 8 + 1 + 4 ≤
      (leBytes 8 b.numBits ++ UInt8.ofNat b.numHashFunctions :: b.bits).length + 4 := by
    omega
  rw [decodeBloomBlock, encodeBloomBlock, checkedBody_eq crc _ hmin, ok_bind,
    readU64_stands hstart hbits, ok_bind]
  dsimp only
  rw [readU8_stands hstart.skip_leBytes, ok_bind]
  by_cases hcap : maxBloomBitArrayBytes < bytesFor b.numBits
  · rw [if_pos hcap, boundedLen, if_pos hcap]
    rfl
  · have hbitsPos := hstart.skip_leBytes.skip_one
    rw [if_neg hcap, boundedLen_ok (Nat.not_lt.mp hcap), ok_bind, ← hsized,
      readBytes_stands hbitsPos, ok_bind]
    rw [if_neg (not_not.mpr hbitsPos.skip.eq_end), UInt8.toNat_ofNat', Nat.mod_eq_of_lt hhash]

theorem footerField_stands {width : Nat} (hn : n < 256 ^ width)
    (h : Stands buf pos (leBytes width n ++ rest)) : footerField buf pos width = n := by
  have htake : (leBytes width n ++ rest).take width = leBytes width n := by
    have hleft : (leBytes width n ++ rest).take (leBytes width n).length = _ := take_left
    rwa [length_leBytes] at hleft
  rw [footerField, h.drop_eq, htake, leNat_leBytes hn]

/-- Every field has room in the footer. -/
structure FooterFits (f : Footer) : Prop where
  version : f.formatVersion = Sst.formatVersion
  minSeq : f.minSeq ≤ u64Max
  maxSeq : f.maxSeq ≤ u64Max
  recordCount : f.recordCount ≤ u64Max
  bloomOffset : f.bloomOffset ≤ u64Max
  bloomLength : f.bloomLength ≤ u64Max
  indexOffset : f.indexOffset ≤ u64Max
  indexLength : f.indexLength ≤ u64Max

/-- The footer up to its checksum. -/
def footerFields (f : Footer) : Bytes :=
  magic ++ (leBytes 4 f.formatVersion ++ (leBytes 8 f.minSeq ++ (leBytes 8 f.maxSeq ++
    (leBytes 8 f.recordCount ++ (leBytes 8 f.bloomOffset ++ (leBytes 8 f.bloomLength ++
    (leBytes 8 f.indexOffset ++ leBytes 8 f.indexLength)))))))

theorem encodeFooter_eq (f : Footer) :
    encodeFooter crc f = footerFields f ++ leBytes 4 (crc (footerFields f)).toNat := rfl

theorem length_footerFields (f : Footer) : (footerFields f).length = 68 := by
  rfl

theorem length_encodeFooter (f : Footer) : (encodeFooter crc f).length = footerSize := by
  rfl

/-- **The footer reads back** from the end of the file. -/
theorem decodeFooter_encodeFooter (front : Bytes) {f : Footer} (hf : FooterFits f) :
    decodeFooter crc (front ++ encodeFooter crc f) = .ok f := by
  have hlen : (front ++ encodeFooter crc f).length = front.length + footerSize := by
    rw [length_append, length_encodeFooter]
  have hdrop : (front ++ encodeFooter crc f).drop
      ((front ++ encodeFooter crc f).length - footerSize) = encodeFooter crc f := by
    rw [hlen, Nat.add_sub_cancel, drop_left]
  have htake : (encodeFooter crc f).take 68 = footerFields f := by
    rw [encodeFooter_eq, ← length_footerFields f, take_left]
  have hsmall : (encodeFooter crc f).length ≤ usizeMax := by
    rw [length_encodeFooter]
    decide
  have hu64 : ∀ {n : Nat}, n ≤ u64Max → n < 256 ^ 8 := fun h => by unfold u64Max at h; omega
  -- the reader's position in front of each field in turn
  have hmagic : Stands (encodeFooter crc f) 0
      (footerFields f ++ (leBytes 4 (crc (footerFields f)).toNat ++ [])) := by
    exact stands_zero hsmall
  have hcrc := hmagic.skip
  nth_rewrite 1 [footerFields] at hmagic
  simp only [append_assoc] at hmagic
  have hversion := hmagic.skip
  have hminSeq := hversion.skip_leBytes
  have hmaxSeq := hminSeq.skip_leBytes
  have hcount := hmaxSeq.skip_leBytes
  have hbloomOff := hcount.skip_leBytes
  have hbloomLen := hbloomOff.skip_leBytes
  have hindexOff := hbloomLen.skip_leBytes
  have hindexLen := hindexOff.skip_leBytes
  have hmagicEq : (encodeFooter crc f).take 8 = magic := by
    have hbytes := hmagic.drop_eq
    rw [drop_zero] at hbytes
    exact @take_left _ magic _
  have hversionEq : footerField (encodeFooter crc f) 8 4 = f.formatVersion :=
    footerField_stands (by rw [hf.version]; decide) hversion
  have hcrcEq : footerField (encodeFooter crc f) 68 4 = (crc (footerFields f)).toNat :=
    footerField_stands (crc _).toNat_lt hcrc
  have hminSeqEq : footerField (encodeFooter crc f) 12 8 = f.minSeq :=
    footerField_stands (hu64 hf.minSeq) hminSeq
  have hmaxSeqEq : footerField (encodeFooter crc f) 20 8 = f.maxSeq :=
    footerField_stands (hu64 hf.maxSeq) hmaxSeq
  have hcountEq : footerField (encodeFooter crc f) 28 8 = f.recordCount :=
    footerField_stands (hu64 hf.recordCount) hcount
  have hbloomOffEq : footerField (encodeFooter crc f) 36 8 = f.bloomOffset :=
    footerField_stands (hu64 hf.bloomOffset) hbloomOff
  have hbloomLenEq : footerField (encodeFooter crc f) 44 8 = f.bloomLength :=
    footerField_stands (hu64 hf.bloomLength) hbloomLen
  have hindexOffEq : footerField (encodeFooter crc f) 52 8 = f.indexOffset :=
    footerField_stands (hu64 hf.indexOffset) hindexOff
  have hindexLenEq : footerField (encodeFooter crc f) 60 8 = f.indexLength :=
    footerField_stands (hu64 hf.indexLength) hindexLen
  rw [decodeFooter, if_neg (by rw [hlen]; omega), hdrop]
  dsimp only
  rw [hmagicEq, hversionEq, hcrcEq, htake, if_neg (not_not.mpr rfl),
    if_neg (not_not.mpr hf.version), if_neg (not_not.mpr rfl), hminSeqEq, hmaxSeqEq, hcountEq,
    hbloomOffEq, hbloomLenEq, hindexOffEq, hindexLenEq]

end Blocks

end RubixDb.Proof
