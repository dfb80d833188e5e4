import RubixDb.Lib.Crc32c
import RubixDb.Proof.WalWalk

/-!
# A segment cut short

A crash leaves a segment that ends anywhere, possibly with zeros where the file was made
longer before its data arrived. The walk delivers the frames that are whole and stops at
the one that was cut.

Zeros behind a cut frame are bytes like any other to the walk. If they reach the end the
cut frame's header announces, they stand in for the missing bytes: the frame may read as
complete (its lost bytes were zeros), and if it does not while more zeros follow, it is a
bad frame with something behind it, which the walk escalates rather than cuts off.
-/

namespace RubixDb.Proof

open Lib List

variable {crc : Bytes → UInt32} {maxRecordLen : Nat}

/-- The frames that lie wholly in the first `n` bytes. -/
def wholeIn : List (WalFrame crc maxRecordLen) → Nat → List (WalFrame crc maxRecordLen)
  | [], _ => []
  | f :: fs, n => if f.bytes.length ≤ n then f :: wholeIn fs (n - f.bytes.length) else []

/-- **Where a cut falls:** behind the whole frames there is nothing, or the front of one. -/
theorem take_segmentBody (frames : List (WalFrame crc maxRecordLen)) (n : Nat) :
    ∃ stray, (segmentBody frames).take n = segmentBody (wholeIn frames n) ++ stray ∧
      (stray = [] ∨ ∃ f : WalFrame crc maxRecordLen,
        ∃ k < f.bytes.length, stray = f.bytes.take k) := by
  induction frames generalizing n with
  | nil =>
    exact ⟨[], by simp [segmentBody, wholeIn], .inl rfl⟩
  | cons f fs ih =>
    have hcons : segmentBody (f :: fs) = f.bytes ++ segmentBody fs := rfl
    by_cases hn : f.bytes.length ≤ n
    · obtain ⟨stray, htake, hstray⟩ := ih (n - f.bytes.length)
      refine ⟨stray, ?_, hstray⟩
      rw [wholeIn, if_pos hn, hcons, take_append, take_of_length_le hn, htake,
        ← append_assoc]
      rfl
    · refine ⟨f.bytes.take n, ?_, .inr ⟨f, n, by omega, rfl⟩⟩
      rw [wholeIn, if_neg hn, hcons, take_append_of_le_length (by omega)]
      rfl

section Stray

variable {stray : Bytes}

/-- The announced length of a cut frame, with zeros for what is missing, is at most the
frame's own, and the announced end is not before the cut. -/
theorem announced_stray {f : WalFrame crc maxRecordLen} {k : Nat} (hk : k < f.bytes.length)
    (zeros : Nat) :
    announced (f.bytes.take k ++ List.replicate zeros 0) ≤ maxRecordLen ∧
      k ≤ 8 + announced (f.bytes.take k ++ List.replicate zeros 0) := by
  obtain ⟨body, hbytes, h9, hmax, hlt, -⟩ := exists_body f
  have hfield : leNat (f.bytes.take 4) = body.length := by
    rw [hbytes]
    simpa using @leNat_length_field crc body hlt []
  have hlen : f.bytes.length = 8 + body.length := by
    rw [hbytes, length_frame]
  unfold announced
  by_cases h4 : 4 ≤ k
  · -- the length field is all there
    have htake : (f.bytes.take k ++ List.replicate zeros 0).take 4 = f.bytes.take 4 := by
      rw [take_append_of_le_length (by rw [length_take]; omega), take_take,
        Nat.min_eq_left h4]
    rw [htake]
    omega
  · -- its upper bytes are missing and read as zeros
    have hklen : (f.bytes.take k).length = k := by
      rw [length_take]
      omega
    have htake : (f.bytes.take k ++ List.replicate zeros 0).take 4 =
        f.bytes.take k ++ (List.replicate zeros 0).take (4 - k) := by
      rw [take_append, hklen, take_of_length_le (by omega)]
    have hzero : leNat ((List.replicate zeros (0 : UInt8)).take (4 - k)) = 0 :=
      leNat_eq_zero_of_all_zero fun b hb => eq_of_mem_replicate (take_subset _ _ hb)
    have hsplit : f.bytes.take 4 = f.bytes.take k ++ (f.bytes.drop k).take (4 - k) := by
      rw [← take_add]
      congr 1
      omega
    have hle : leNat (f.bytes.take k) ≤ leNat (f.bytes.take 4) := by
      rw [hsplit, leNat_append]
      omega
    rw [htake, leNat_append, hzero]
    omega

/-- The same for whatever a cut leaves behind the whole frames. -/
theorem announced_cut (hstray : stray = [] ∨ ∃ f : WalFrame crc maxRecordLen,
      ∃ k < f.bytes.length, stray = f.bytes.take k) (zeros : Nat) :
    announced (stray ++ List.replicate zeros 0) ≤ maxRecordLen ∧
      stray.length ≤ 8 + announced (stray ++ List.replicate zeros 0) := by
  obtain rfl | ⟨f, k, hk, rfl⟩ := hstray
  · have hzero : announced ([] ++ List.replicate zeros 0) = 0 :=
      leNat_eq_zero_of_all_zero fun b hb => eq_of_mem_replicate (take_subset _ _ hb)
    rw [hzero]
    exact ⟨Nat.zero_le _, Nat.zero_le _⟩
  · obtain ⟨hmax, hle⟩ := announced_stray hk zeros
    exact ⟨hmax, by rw [length_take]; omega⟩

/-- A frame the zeros completed has only zeros behind it. -/
theorem zero_behind {zeros : Nat} {rest : Bytes} {r : WalRecord}
    (hle : stray.length ≤ 8 + announced (stray ++ List.replicate zeros 0))
    (h : readFrame crc maxRecordLen (stray ++ List.replicate zeros 0) = some (r, rest)) :
    ∀ b ∈ rest, b = 0 := by
  obtain ⟨-, rfl⟩ := readFrame_rest h
  intro b hb
  rw [drop_append, drop_eq_nil_of_le hle] at hb
  exact eq_of_mem_replicate (drop_subset _ _ hb)

/-- Without zeros a cut frame ends before its announced end. -/
theorem cut_short (hstray : stray = [] ∨ ∃ f : WalFrame crc maxRecordLen,
      ∃ k < f.bytes.length, stray = f.bytes.take k) : stray.length < 8 + announced stray := by
  obtain rfl | ⟨f, k, hk, rfl⟩ := hstray
  · show 0 < 8 + announced []
    omega
  · obtain ⟨body, hbytes, h9, -, hlt, -⟩ := exists_body f
    have hlen : f.bytes.length = 8 + body.length := by
      rw [hbytes, length_frame]
    rw [length_take]
    by_cases h4 : 4 ≤ k
    · have hfield : announced (f.bytes.take k) = body.length := by
        unfold announced
        rw [take_take, Nat.min_eq_left h4, hbytes]
        simpa using @leNat_length_field crc body hlt []
      omega
    · omega

end Stray

/--
**Recovery of a cut segment.** The frames wholly inside the cut are delivered, in order,
with their sequence numbers and operations, and after them one more frame exactly when the
zeros make the cut one read as complete. The walk ends behind the last frame delivered. It
reports corruption exactly when the cut frame, not all zeros and not readable, has bytes
behind the end it announces and the lost-sector rule does not apply, and otherwise a torn
tail exactly when bytes remain. Without zeros nothing is completed and nothing is corrupt.
-/
theorem walk_of_cut_segment (crc : Bytes → UInt32) (maxRecordLen segmentId : Nat)
    (frames : List (WalFrame crc maxRecordLen)) (cut zeros : Nat) :
    let file := encodeSegmentHeader segmentId ++
      ((segmentBody frames).take cut ++ List.replicate zeros 0)
    let out := walkSegment crc maxRecordLen file
    let kept := wholeIn frames cut
    let keptEnd := segmentHeaderLen + (segmentBody kept).length
    let tail := file.drop keptEnd
    let filled := readFrame crc maxRecordLen tail
    out.records = kept.map (·.record) ++ filled.toList.map (·.1) ∧
    out.validEndOffset = keptEnd + (if filled.isSome then 8 + announced tail else 0) ∧
    (out.corrupted = true ↔ filled = none ∧ (¬ ∀ b ∈ tail, b = 0) ∧
      8 + announced tail < tail.length ∧
      lostFirstSectorTail crc maxRecordLen keptEnd tail = false) ∧
    (out.truncated = true ↔ out.corrupted = false ∧ out.validEndOffset < file.length) ∧
    (zeros = 0 → filled = none ∧ out.corrupted = false) := by
  intro file out kept keptEnd tail filled
  obtain ⟨stray, htake, hstray⟩ := take_segmentBody frames cut
  have hbody : (segmentBody frames).take cut ++ List.replicate zeros 0 =
      segmentBody kept ++ (stray ++ List.replicate zeros 0) := by
    rw [htake, append_assoc]
  have hfile : file = encodeSegmentHeader segmentId ++
      (segmentBody kept ++ (stray ++ List.replicate zeros 0)) := by
    rw [← hbody]
  have htail : tail = stray ++ List.replicate zeros 0 := by
    show file.drop keptEnd = _
    rw [hfile, ← append_assoc, drop_left' (by simp [keptEnd])]
  have hfilelen : file.length = keptEnd + tail.length := by
    rw [htail, hfile]
    simp only [length_append, length_encodeSegmentHeader, keptEnd]
    omega
  clear_value tail
  obtain ⟨hmax, hle⟩ := announced_cut hstray zeros
  rw [← htail] at hmax hle
  -- what is read and where the walk stops
  obtain ⟨rs, rest, hrs, hrest, hnone, hend, hdamaged⟩ : ∃ rs rest,
      Reads crc maxRecordLen tail rs rest ∧ rs = filled.toList.map (·.1) ∧
      readFrame crc maxRecordLen rest = none ∧
      tail.length - rest.length = (if filled.isSome then 8 + announced tail else 0) ∧
      (Damaged crc maxRecordLen (keptEnd + (tail.length - rest.length)) rest ↔
        filled = none ∧ (¬ ∀ b ∈ tail, b = 0) ∧ 8 + announced tail < tail.length ∧
        lostFirstSectorTail crc maxRecordLen keptEnd tail = false) := by
    cases hfilled : filled with
    | none =>
      refine ⟨[], tail, .nil tail, rfl, hfilled, by simp, ?_⟩
      rw [Nat.sub_self]
      constructor
      · intro hd
        have := hd.behind
        exact ⟨rfl, hd.nonzero, by omega, hd.notLost⟩
      · rintro ⟨-, hnz, hlt, hlost⟩
        exact ⟨by omega, hnz, .inr hlt, hlost⟩
    | some p =>
      obtain ⟨r, rest⟩ := p
      have hread : readFrame crc maxRecordLen tail = some (r, rest) := hfilled
      have hz : ∀ b ∈ rest, b = 0 := by
        rw [htail] at hread hle
        exact zero_behind hle hread
      obtain ⟨hfit, hdrop⟩ := readFrame_rest hread
      refine ⟨[r], rest, .cons hread (.nil rest), rfl, readFrame_zero hz, ?_, ?_⟩
      · rw [hdrop, length_drop, Option.isSome_some, if_pos rfl]
        omega
      · exact iff_of_false (not_damaged_of_zero hz) (by simp)
  have hwalk : Ends crc maxRecordLen out (kept.map (·.record) ++ rs)
      (segmentHeaderLen + ((segmentBody kept ++ tail).length - rest.length)) rest := by
    have := walkSegment_reads (length_encodeSegmentHeader segmentId) (reads_frames hrs kept) hnone
    rwa [htail, ← hfile, ← htail] at this
  have hrestle := hrs.length_le
  have hoff : segmentHeaderLen + ((segmentBody kept ++ tail).length - rest.length) =
      keptEnd + (tail.length - rest.length) := by
    rw [length_append]
    omega
  rw [hoff] at hwalk
  have hcorrupted := hwalk.corrupted.trans hdamaged
  refine ⟨by rw [hwalk.records, hrest], by rw [hwalk.validEndOffset, hend], hcorrupted, ?_, ?_⟩
  · rw [hwalk.truncated, ← hwalk.corrupted, hwalk.validEndOffset, Bool.not_eq_true,
      ← length_pos_iff]
    constructor
    · exact fun h => ⟨h.2, by omega⟩
    · exact fun h => ⟨by omega, h.1⟩
  · rintro rfl
    have hshort : tail.length < 8 + announced tail := by
      rw [htail, replicate_zero, append_nil]
      exact cut_short hstray
    constructor
    · cases hfilled : filled with
      | none => rfl
      | some p =>
        have := (readFrame_rest hfilled).1
        omega
    · rw [← Bool.not_eq_true, hcorrupted]
      omega

/-- A frame cut in its middle with zeros behind its announced end is reported as
corruption, and a frame whose missing byte was a zero is delivered though it was cut. -/
theorem zeros_behind_cut_frame :
    (∃ bytes, encodeWalFrame crc32c 1 (.put [1] [2]) defaultMaxRecordLen = .ok bytes ∧
      bytes.length = 27 ∧
      (walkSegment crc32c defaultMaxRecordLen
        (encodeSegmentHeader 1 ++ (bytes.take 12 ++ List.replicate 100 0))).corrupted = true) ∧
    (∃ bytes, encodeWalFrame crc32c 1 (.put [1] [0]) defaultMaxRecordLen = .ok bytes ∧
      bytes.length = 27 ∧
      (walkSegment crc32c defaultMaxRecordLen
        (encodeSegmentHeader 1 ++ (bytes.take 26 ++ List.replicate 1 0))).records =
          [⟨1, .put [1] [0]⟩]) :=
  ⟨exists_ok (by decide +kernel), exists_ok (by decide +kernel)⟩

end RubixDb.Proof
