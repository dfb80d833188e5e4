import RubixDb.Lib.Crc32c
import RubixDb.Storage.SstWriter

/-!
# Reading a table that someone else wrote

Whatever the bytes of a file are, once `open` has accepted them no lookup and no scan
indexes past an end or subtracts below zero: the positions a decoder returns never leave
its buffer, the candidate blocks are indices of the index, and the probes of the bloom
filter fall into its bit array.

The remainder that places a probe is the exception. Nothing checks that the filter has a
bit at all, and a filter of no bits with a hash function panics on the first lookup.
-/

namespace RubixDb.Proof

open Lib Sst

/-! ## Decoders -/

theorem ensures_corrupt (detail : String) (P : α → Prop) : Ensures (corrupt detail : Result α) P :=
  ensures_raise _ _

theorem ensures_checked {c : Prop} [Decidable c] {detail : String} {x : Result α} {P : α → Prop}
    (h : ¬ c → Ensures x P) : Ensures (if c then corrupt detail else x) P :=
  ensures_ite (fun _ => ensures_corrupt _ _) h

theorem safe_boundedLen (len max : Nat) : Safe (boundedLen len max) :=
  ensures_ite (fun _ => ensures_raise _ _) fun _ => trivial

/-- A reader that has read something has stayed inside its buffer. -/
theorem readSlice_inside (buf : Bytes) (pos len : Nat) (what need : String) :
    Ensures (readSlice buf pos len what need) fun r =>
      r.1.length = len ∧ r.2 ≤ buf.length := by
  refine ensures_checked fun _ => ?_
  refine ensures_checked fun hlen => ?_
  show ((buf.drop pos).take len).length = len ∧ pos + len ≤ buf.length
  rw [List.length_take, List.length_drop]
  omega

theorem readU32_inside (buf : Bytes) (pos : Nat) (what : String) :
    Ensures (Sst.readU32 buf pos what) fun r => r.2 ≤ buf.length :=
  (readSlice_inside ..).bind fun _ h => h.2

theorem readU64_inside (buf : Bytes) (pos : Nat) (what : String) :
    Ensures (Sst.readU64 buf pos what) fun r => r.2 ≤ buf.length :=
  (readSlice_inside ..).bind fun _ h => h.2

theorem readU8_inside (buf : Bytes) (pos : Nat) (what : String) :
    Ensures (Sst.readU8 buf pos what) fun r => r.2 ≤ buf.length := by
  unfold Sst.readU8
  cases hb : buf[pos]? with
  | none => exact ensures_corrupt _ _
  | some b =>
    obtain ⟨hlt, -⟩ := List.getElem?_eq_some_iff.mp hb
    exact hlt

theorem decodeRecord_inside (buf : Bytes) (pos : Nat) :
    Ensures (decodeRecord buf pos) fun r => r.2 ≤ buf.length := by
  refine (readU32_inside ..).bind fun _ _ => ?_
  refine (safe_boundedLen ..).bind fun _ _ => ?_
  refine (readSlice_inside ..).bind fun _ _ => ?_
  refine (readU64_inside ..).bind fun _ _ => ?_
  refine (readU8_inside ..).bind fun _ _ => ?_
  refine ensures_checked fun _ => ?_
  have hvalue : ∀ pos op, Ensures (Sst.decodeValue buf pos op) fun r => r.2 ≤ buf.length := by
    intro pos op
    refine (readU32_inside ..).bind fun _ _ => ?_
    refine (safe_boundedLen ..).bind fun _ _ => ?_
    refine ensures_checked fun _ => ?_
    exact (readSlice_inside ..).mono fun _ h => h.2
  exact (hvalue _ _).bind fun _ h => h

theorem decodeRecords_inside (buf : Bytes) : ∀ (count pos : Nat), pos ≤ buf.length →
    Ensures (decodeRecords buf count pos) fun r => r.2 ≤ buf.length
  | 0, _, hpos => hpos
  | count + 1, _, _ => by
    refine (decodeRecord_inside ..).bind ?_
    rintro ⟨_, pos⟩ hpos
    exact (decodeRecords_inside buf count pos hpos).bind fun _ h => h

theorem safe_checkedBody (crc : Bytes → UInt32) {minLen : Nat} (hmin : 4 ≤ minLen)
    (short mismatch : String) (buf : Bytes) : Safe (checkedBody crc minLen short mismatch buf) := by
  refine ensures_checked fun hlen => ?_
  refine (safe_checkedSub (by omega)).bind fun _ _ => ?_
  exact ensures_checked fun _ => trivial

theorem safe_atEnd {buf : Bytes} {pos : Nat} (hpos : pos ≤ buf.length) (what items : String)
    (a : α) : Safe (atEnd buf pos what items a) := by
  refine ensures_ite (fun _ => ?_) fun _ => trivial
  exact (safe_checkedSub hpos).bind fun _ _ => ensures_corrupt _ _

section Tables

variable (crc : Bytes → UInt32)

theorem safe_decodeBlock (buf : Bytes) : Safe (decodeBlock crc buf) := by
  refine (safe_checkedBody crc (by decide) ..).bind fun _ _ => ?_
  refine (readU32_inside ..).bind ?_
  rintro ⟨count, pos⟩ hpos
  refine (decodeRecords_inside _ _ _ hpos).bind ?_
  rintro ⟨records, pos'⟩ hpos'
  exact safe_atEnd hpos' ..

theorem safe_readBlock (t : Table) (entry : IndexEntry) : Safe (t.readBlock crc entry) := by
  refine Ensures.bind (P := fun _ => True) ?_ fun _ _ => safe_decodeBlock crc _
  exact ensures_ite (fun _ => ensures_raise _ _) fun _ => trivial

/-! ## The bloom filter -/

/-- The bit array has room for the bits it is said to have. -/
def BloomFilter.Sized (b : BloomFilter) : Prop := b.bits.length = bytesFor b.numBits

theorem decodeBloomBlock_sized (buf : Bytes) :
    Ensures (decodeBloomBlock crc buf) BloomFilter.Sized := by
  refine (safe_checkedBody crc (by decide) ..).bind fun _ _ => ?_
  refine (readU64_inside ..).bind fun _ _ => ?_
  refine (readU8_inside ..).bind fun _ _ => ?_
  refine (safe_boundedLen ..).bind fun _ _ => ?_
  refine (readSlice_inside ..).bind fun _ hbits => ?_
  refine ensures_checked fun _ => ?_
  exact hbits.1

theorem safe_probe {b : BloomFilter} (hsized : BloomFilter.Sized b) (hbits : b.numBits ≠ 0)
    (h₁ h₂ : Nat) : ∀ left i, Safe (b.probe h₁ h₂ left i)
  | 0, _ => trivial
  | left + 1, i => by
    have hbit : (h₁ + i * h₂) % 2 ^ 64 % b.numBits < b.numBits :=
      Nat.mod_lt _ (Nat.pos_of_ne_zero hbits)
    have hbyte : (h₁ + i * h₂) % 2 ^ 64 % b.numBits / 8 < b.bits.length := by
      unfold BloomFilter.Sized bytesFor at hsized
      omega
    rw [Sst.BloomFilter.probe, checkedRem_eq hbits]
    refine (safe_indexAt hbyte).bind fun _ _ => ?_
    exact ensures_ite (fun _ => safe_probe hsized hbits h₁ h₂ left (i + 1)) fun _ => trivial

/-- A filter of no bits panics as soon as it is asked. -/
theorem probe_no_bits {b : BloomFilter} (hbits : b.numBits = 0) (h₁ h₂ left i : Nat) :
    b.probe h₁ h₂ (left + 1) i = panicked := by
  rw [Sst.BloomFilter.probe, hbits]
  rfl

/-! ## Opening -/

theorem decodeIndexEntry_inside (buf : Bytes) (pos : Nat) :
    Ensures (decodeIndexEntry buf pos) fun r => r.2 ≤ buf.length := by
  refine (readU32_inside ..).bind fun _ _ => ?_
  refine (safe_boundedLen ..).bind fun _ _ => ?_
  refine (readSlice_inside ..).bind fun _ _ => ?_
  refine (readU64_inside ..).bind fun _ _ => ?_
  exact (readU32_inside ..).bind fun _ h => h

theorem decodeIndexEntries_inside (buf : Bytes) (dataRegionLen : Nat) :
    ∀ (count pos expectedOffset : Nat) (prev : Option Key), pos ≤ buf.length →
      Ensures (decodeIndexEntries buf dataRegionLen count pos expectedOffset prev)
        fun r => r.2.1 ≤ buf.length
  | 0, _, _, _, hpos => hpos
  | count + 1, _, _, _, _ => by
    refine (decodeIndexEntry_inside ..).bind ?_
    rintro ⟨entry, pos⟩ hpos
    iterate 4 refine ensures_checked fun _ => ?_
    exact (decodeIndexEntries_inside buf dataRegionLen count pos _ _ hpos).bind fun _ h => h

theorem safe_decodeIndexBlock (buf : Bytes) (dataRegionLen : Nat) :
    Safe (decodeIndexBlock crc buf dataRegionLen) := by
  refine (safe_checkedBody crc (by decide) ..).bind fun _ _ => ?_
  refine (readU32_inside ..).bind ?_
  rintro ⟨count, pos⟩ hpos
  refine (decodeIndexEntries_inside _ _ _ _ _ _ hpos).bind ?_
  rintro ⟨entries, pos', expectedOffset⟩ hpos'
  refine (safe_atEnd hpos' ..).bind fun _ _ => ?_
  exact ensures_checked fun _ => trivial

theorem decodeFooter_size (file : Bytes) :
    Ensures (decodeFooter crc file) fun _ => footerSize ≤ file.length := by
  refine ensures_checked fun hlen => ?_
  refine ensures_checked fun _ => ?_
  refine ensures_ite (fun _ => ensures_raise _ _) fun _ => ?_
  refine ensures_checked fun _ => ?_
  exact not_lt.mp hlen

theorem safe_checkLayout (footer : Footer) (usableLen : Nat) :
    Safe (checkLayout footer usableLen) := by
  iterate 6 refine ensures_checked fun _ => ?_
  exact ensures_checked fun _ => trivial

theorem safe_readExactAt (file : Bytes) (offset len : Nat) : Safe (readExactAt file offset len) :=
  ensures_ite (fun _ => ensures_raise _ _) fun _ => trivial

/-- Opening never panics, and the bloom filter it returns has room for its bits. -/
theorem openTable_sized (file : Bytes) :
    Ensures (openTable crc file) fun t => BloomFilter.Sized t.bloom := by
  refine (decodeFooter_size crc file).bind fun footer hlen => ?_
  refine (safe_checkedSub hlen).bind fun _ _ => ?_
  refine (safe_checkLayout ..).bind fun _ _ => ?_
  refine (safe_readExactAt ..).bind fun _ _ => ?_
  refine (decodeBloomBlock_sized crc _).bind fun bloom hsized => ?_
  refine (safe_readExactAt ..).bind fun _ _ => ?_
  refine (safe_decodeIndexBlock crc ..).bind fun _ _ => ?_
  exact hsized

/-! ## Lookups and scans -/

theorem safe_candidates (t : Table) (key : Key) : ∀ (fuel idx : Nat), idx < t.index.length →
    Safe (t.candidates key fuel idx)
  | 0, _, _ => trivial
  | fuel + 1, idx, hidx => by
    unfold Table.candidates
    refine (safe_indexAt hidx).bind fun _ _ => ?_
    refine ensures_ite (fun hnext => ?_) fun _ => trivial
    exact (safe_candidates t key fuel (idx + 1) hnext.2).bind fun _ _ => trivial

theorem safe_pickBlocks (t : Table) (key : Key) (asOfSeq : Nat) (value : DecodedRecord → β) :
    ∀ (entries : List IndexEntry) (best : Option (Nat × β)),
      Safe (t.pickBlocks crc key asOfSeq value best entries)
  | [], _ => trivial
  | entry :: entries, _ => by
    unfold Table.pickBlocks
    exact (safe_readBlock crc t entry).bind fun _ _ =>
      safe_pickBlocks t key asOfSeq value entries _

variable (xxh64 : Bytes → Nat → UInt64)

/-- The bloom filter is the only part of a lookup that can panic. -/
theorem safe_lookup {t : Table} {key : Key} (hbloom : Safe (t.bloom.mightContain xxh64 key))
    (asOfSeq : Nat) (value : DecodedRecord → β) : Safe (t.lookup crc xxh64 key asOfSeq value) := by
  refine hbloom.bind fun _ _ => ?_
  refine ensures_ite (fun _ => trivial) fun _ => ?_
  refine ensures_ite (fun _ => trivial) fun _ => ?_
  refine ensures_ite (fun _ => trivial) fun hidx => ?_
  exact (safe_candidates t key _ _ (not_le.mp hidx)).bind fun _ _ => safe_pickBlocks crc ..

theorem safe_advance (t : Table) (start stop : Bound Key) : ∀ (blocks : List IndexEntry)
    (current : List DecodedRecord), Safe (t.advance crc start stop blocks current)
  | blocks, current => by
    unfold Table.advance
    split
    · trivial
    · trivial
    · split
      · trivial
      · rename_i entry blocks
        have hread := safe_readBlock crc t entry
        split
        · exact safe_advance t start stop blocks _
        · trivial
        · rename_i hpanic
          rw [hpanic] at hread
          exact hread

theorem safe_next (t : Table) (c : Cursor) : Safe (t.next crc c) :=
  ensures_ite (fun _ => trivial) fun _ => safe_advance crc t ..

/-- No read of the table panics: no lookup, no existence check and no step of a scan,
wherever the scan stands. -/
structure ReadsSafely (t : Table) : Prop where
  get : ∀ key asOfSeq, Safe (t.getVersioned crc xxh64 key asOfSeq)
  contains : ∀ key asOfSeq, Safe (t.containsVersioned crc xxh64 key asOfSeq)
  scan : ∀ cursor, Safe (t.next crc cursor)

/-- **An accepted file reads without a panic,** except when its bloom block declares no
bits and at least one hash function. -/
theorem accepted_table_reads_safely_iff {file : Bytes} {t : Table}
    (hopen : openTable crc file = .ok t) :
    ReadsSafely crc xxh64 t ↔ (t.bloom.numHashFunctions = 0 ∨ t.bloom.numBits ≠ 0) := by
  constructor
  · intro hreads
    by_contra hbad
    obtain ⟨hhash, hbits⟩ := not_or.mp hbad
    obtain ⟨left, hleft⟩ := Nat.exists_eq_succ_of_ne_zero hhash
    have hget := hreads.get [] 0
    have hpanic : t.bloom.mightContain xxh64 [] = panicked := by
      rw [Sst.BloomFilter.mightContain, hleft]
      exact probe_no_bits (not_not.mp hbits) ..
    rw [Table.getVersioned, Table.lookup, hpanic] at hget
    exact hget
  · intro hcond
    have hsized := (openTable_sized crc file).of_ok hopen
    have hbloom : ∀ key, Safe (t.bloom.mightContain xxh64 key) := by
      intro key
      unfold Sst.BloomFilter.mightContain
      rcases hcond with hhash | hbits
      · rw [hhash]
        trivial
      · exact safe_probe hsized hbits ..
    exact {
      get := fun key asOfSeq => safe_lookup crc xxh64 (hbloom key) asOfSeq _
      contains := fun key asOfSeq =>
        (safe_lookup crc xxh64 (hbloom key) asOfSeq _).bind fun _ _ => trivial
      scan := safe_next crc t }

end Tables

/-! ## A file that panics -/

/-- A file with no data and a bloom block of this content. -/
def fileWithBloom (b : BloomFilter) : Bytes :=
  let bloom := encodeBloomBlock crc32c b
  let index := (encodeIndexBlock crc32c []).toOption.getD []
  bloom ++ (index ++ encodeFooter crc32c {
    formatVersion := 1
    minSeq := 0
    maxSeq := 0
    recordCount := 0
    bloomOffset := 0
    bloomLength := bloom.length
    indexOffset := bloom.length
    indexLength := index.length })

/-- A bloom block of no bits and one hash function is accepted, and the first lookup takes
a remainder by zero. -/
theorem bloom_of_no_bits_panics : ∃ t, openTable crc32c (fileWithBloom ⟨0, 1, []⟩) = .ok t ∧
    t.getVersioned crc32c (fun _ _ => 0) [0x6B] 7 = panicked :=
  exists_ok (by decide +kernel)

/-- A put and a deletion, each in a block of its own. -/
theorem two_blocks_read_safely : ∃ file t,
    Env.writeFromSortedRecords ⟨crc32c, fun _ _ => 0, fun _ => 7⟩ ⟨1, 10⟩ 2
      [⟨[0x6B], 1, .put [0x76]⟩, ⟨[0x6C], 2, .tombstone⟩] = .ok file ∧
    openTable crc32c file = .ok t ∧ t.index.length = 2 ∧ ReadsSafely crc32c (fun _ _ => 0) t := by
  obtain ⟨file, hfile, hany⟩ : ∃ file,
      Env.writeFromSortedRecords ⟨crc32c, fun _ _ => 0, fun _ => 7⟩ ⟨1, 10⟩ 2
        [⟨[0x6B], 1, .put [0x76]⟩, ⟨[0x6C], 2, .tombstone⟩] = .ok file ∧
      (openTable crc32c file).toOption.any (fun t =>
        decide (t.index.length = 2 ∧ t.bloom.numBits ≠ 0)) = true := exists_ok (by decide +kernel)
  obtain ⟨t, hopen, hindex, hbits⟩ := exists_ok hany
  exact ⟨file, t, hfile, hopen, hindex,
    (accepted_table_reads_safely_iff crc32c (fun _ _ => 0) hopen).mpr (.inr hbits)⟩

end RubixDb.Proof
