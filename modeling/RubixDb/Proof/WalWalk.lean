import RubixDb.Proof.WalCodec

/-!
# Where a walk ends

`walk_segment` reads frames as long as there is one to read and looks at the place where
there is none. `Reads` says which records are read off the front of a byte string and what
is left; `Damaged` is the one test that separates corruption from a torn tail there. A
walk is these two (`walkLoop_reads`): every result about a walk is a statement about them.
-/

namespace RubixDb.Proof

open Lib

variable {offset : Nat} {bs rest : Bytes} {rs : List WalRecord}

variable {crc : Bytes → UInt32} {maxRecordLen : Nat}

/-- Reading `rs` off the front of the bytes leaves `rest`. -/
inductive Reads (crc : Bytes → UInt32) (maxRecordLen : Nat) :
    Bytes → List WalRecord → Bytes → Prop where
  | nil (bs : Bytes) : Reads crc maxRecordLen bs [] bs
  | cons {bs mid rest : Bytes} {r : WalRecord} {rs : List WalRecord} :
      readFrame crc maxRecordLen bs = some (r, mid) → Reads crc maxRecordLen mid rs rest →
      Reads crc maxRecordLen bs (r :: rs) rest

/-- Bytes at `offset` that are no frame and no torn tail either: they are not just zeros,
the header is followed by something behind the end it announces (or announces more than is
ever written), and the lost-sector rule does not apply. -/
structure Damaged (crc : Bytes → UInt32) (maxRecordLen offset : Nat) (bs : Bytes) : Prop where
  header : 8 < bs.length
  nonzero : ¬ ∀ b ∈ bs, b = 0
  behind : maxRecordLen < announced bs ∨ 8 + announced bs < bs.length
  notLost : lostFirstSectorTail crc maxRecordLen offset bs = false

/-- What a walk that reads `rs` and stops before `rest` reports. -/
structure Ends (crc : Bytes → UInt32) (maxRecordLen : Nat) (out : WalkOutcome)
    (rs : List WalRecord) (offset : Nat) (rest : Bytes) : Prop where
  records : out.records = rs
  validEndOffset : out.validEndOffset = offset
  corrupted : out.corrupted = true ↔ Damaged crc maxRecordLen offset rest
  truncated : out.truncated = true ↔ rest ≠ [] ∧ ¬ Damaged crc maxRecordLen offset rest

theorem not_damaged_of_zero (h : ∀ b ∈ bs, b = 0) : ¬ Damaged crc maxRecordLen offset bs :=
  fun hd => hd.nonzero h

/-! ## One turn of the loop -/

theorem ends_torn (hne : bs ≠ []) (h : ¬ Damaged crc maxRecordLen offset bs) :
    Ends crc maxRecordLen (tornAt offset) [] offset bs where
  records := rfl
  validEndOffset := rfl
  corrupted := iff_of_false (by simp [tornAt]) h
  truncated := iff_of_true rfl ⟨hne, h⟩

/-- A frame that fails a check: torn when nothing follows it or its first sector was lost,
damaged otherwise. -/
theorem ends_failure {isTail : Bool} {detail : WalkFault} (hlen : 8 ≤ bs.length)
    (hnz : ¬ ∀ b ∈ bs, b = 0) (htail : isTail = false ↔ 8 < bs.length ∧
      (maxRecordLen < announced bs ∨ 8 + announced bs < bs.length)) :
    Ends crc maxRecordLen (classifyFailureOrLostSector crc maxRecordLen offset bs isTail detail) []
      offset bs := by
  have hne : bs ≠ [] := by
    rintro rfl
    exact hnz (by simp)
  unfold classifyFailureOrLostSector
  cases isTail with
  | true =>
    refine ends_torn hne fun hd => ?_
    have := htail.mpr ⟨hd.header, hd.behind⟩
    cases this
  | false =>
    obtain ⟨hgt, hbehind⟩ := htail.mp rfl
    cases hlost : lostFirstSectorTail crc maxRecordLen offset bs with
    | true =>
      refine ends_torn hne fun hd => ?_
      rw [hd.notLost] at hlost
      cases hlost
    | false =>
      have hd : Damaged crc maxRecordLen offset bs := ⟨hgt, hnz, hbehind, hlost⟩
      exact ⟨rfl, rfl, iff_of_true rfl hd, iff_of_false (by simp [classifyFailure])
        fun h => h.2 hd⟩

theorem readFrame_rest {r : WalRecord} (h : readFrame crc maxRecordLen bs = some (r, rest)) :
    8 + announced bs ≤ bs.length ∧ rest = bs.drop (8 + announced bs) := by
  have hlen : 8 ≤ bs.length := by
    have := readFrame_shrinks h
    omega
  have hnz : ¬ ∀ b ∈ bs, b = 0 := by
    intro hz
    unfold readFrame at h
    rw [frameHead_zero hlen hz] at h
    cases h
  unfold readFrame at h
  rw [frameHead_long hlen hnz] at h
  split at h
  · rename_i body rest' hhead
    split at hhead; · cases hhead
    split at hhead; · cases hhead
    split at hhead; · cases hhead
    obtain ⟨-, rfl⟩ := FrameHead.intact.inj hhead
    obtain ⟨_, _, heq⟩ := Option.map_eq_some_iff.mp h
    obtain ⟨-, rfl⟩ := Prod.mk.inj heq
    exact ⟨by omega, List.drop_drop⟩
  · cases h

theorem readFrame_zero (h : ∀ b ∈ bs, b = 0) : readFrame crc maxRecordLen bs = none := by
  unfold readFrame
  by_cases hnil : bs = []
  · rw [hnil, frameHead_nil]
  · by_cases h8 : bs.length < 8
    · rw [frameHead_short hnil h8]
    · rw [frameHead_zero (by omega) h]

/-- **The walk stops** where no frame can be read. -/
theorem walkLoop_stop {fuel offset : Nat} {bs : Bytes}
    (hnone : readFrame crc maxRecordLen bs = none) :
    Ends crc maxRecordLen (walkLoop crc maxRecordLen (fuel + 1) offset bs) [] offset bs := by
  rw [walkLoop]
  by_cases hnil : bs = []
  · -- a clean end
    subst hnil
    have hd : ¬ Damaged crc maxRecordLen offset [] := not_damaged_of_zero (by simp)
    exact ⟨rfl, rfl, iff_of_false (by simp) hd, iff_of_false (by simp) fun h => h.1 rfl⟩
  by_cases h8 : bs.length < 8
  · rw [frameHead_short hnil h8]
    exact ends_torn hnil fun hd => by have := hd.header; omega
  by_cases hz : ∀ b ∈ bs, b = 0
  · rw [frameHead_zero (by omega) hz]
    exact ends_torn hnil (not_damaged_of_zero hz)
  -- from here on there is a header that says something
  have hlen : 8 ≤ bs.length := Nat.le_of_not_lt h8
  have hlong : frameHead crc maxRecordLen bs = _ := frameHead_long hlen hz
  by_cases hover : maxRecordLen < announced bs
  · rw [if_pos hover] at hlong
    rw [hlong]
    refine ends_failure hlen hz ?_
    rw [decide_eq_false_iff_not, frameHeaderLen]
    exact ⟨fun h => ⟨by omega, .inl hover⟩, fun h => by omega⟩
  rw [if_neg hover] at hlong
  by_cases hshort : bs.length < 8 + announced bs
  · rw [if_pos hshort] at hlong
    rw [hlong]
    refine ends_torn hnil fun hd => ?_
    have := hd.behind
    omega
  rw [if_neg hshort] at hlong
  -- the frame ends inside the file: torn exactly when it ends the file
  have htail : ∀ {isTail : Bool}, (isTail = true ↔ 8 + announced bs = bs.length) →
      (isTail = false ↔ 8 < bs.length ∧
        (maxRecordLen < announced bs ∨ 8 + announced bs < bs.length)) := by
    intro isTail h
    cases isTail with
    | true => exact iff_of_false (by simp) fun h' => by have := h.mp rfl; omega
    | false =>
      have : 8 + announced bs ≠ bs.length := fun heq => by simpa using h.mpr heq
      exact iff_of_true rfl ⟨by omega, .inr (by omega)⟩
  by_cases hcrc : (crc ((bs.drop 8).take (announced bs))).toNat ≠ leNat ((bs.drop 4).take 4)
  · rw [if_pos hcrc] at hlong
    rw [hlong]
    exact ends_failure hlen hz (htail decide_eq_true_iff)
  · rw [if_neg hcrc] at hlong
    rw [hlong]
    cases hdec : decodeWalBody ((bs.drop 8).take (announced bs)) with
    | ok r =>
      unfold readFrame at hnone
      rw [hlong] at hnone
      simp [hdec, Except.toOption] at hnone
    | error e =>
      dsimp only
      rw [hdec]
      refine ends_failure hlen hz (htail ?_)
      rw [decide_eq_true_iff, ← List.length_eq_zero_iff, List.length_drop, List.length_drop]
      omega

theorem walkLoop_read {fuel : Nat} {r : WalRecord}
    (h : readFrame crc maxRecordLen bs = some (r, rest)) :
    walkLoop crc maxRecordLen (fuel + 1) offset bs =
      { walkLoop crc maxRecordLen fuel (offset + (bs.length - rest.length)) rest with
        records := r ::
          (walkLoop crc maxRecordLen fuel (offset + (bs.length - rest.length)) rest).records } := by
  unfold readFrame at h
  split at h
  · rename_i body rest' hhead
    obtain ⟨r', hdec, heq⟩ := Option.map_eq_some_iff.mp h
    obtain ⟨rfl, rfl⟩ := Prod.mk.inj heq
    have hbs : bs.length = 8 + body.length + rest'.length := by
      rw [frameHead_intact hhead, List.length_append, length_frame]
    have hnext : offset + frameHeaderLen + body.length = offset + (bs.length - rest'.length) := by
      unfold frameHeaderLen
      omega
    have hok : decodeWalBody body = .ok r' := by
      cases hd : decodeWalBody body with
      | ok x =>
        rw [hd] at hdec
        exact congrArg _ (Option.some.inj hdec)
      | error e =>
        rw [hd] at hdec
        cases hdec
    rw [walkLoop, hhead]
    simp only [hok, hnext]
  · cases h

/-! ## The whole walk -/

theorem Reads.length_le (h : Reads crc maxRecordLen bs rs rest) : rest.length ≤ bs.length := by
  induction h with
  | nil => exact Nat.le_refl _
  | cons hr _ ih =>
    have := readFrame_shrinks hr
    omega

/-- Frames can be read until there is none: there always is such a place. -/
theorem exists_reads (bs : Bytes) :
    ∃ rs rest, Reads crc maxRecordLen bs rs rest ∧ readFrame crc maxRecordLen rest = none := by
  induction hn : bs.length using Nat.strong_induction_on generalizing bs with
  | _ n ih =>
    cases h : readFrame crc maxRecordLen bs with
    | none => exact ⟨[], bs, .nil bs, h⟩
    | some p =>
      obtain ⟨r, mid⟩ := p
      have := readFrame_shrinks h
      obtain ⟨rs, rest, hreads, hnone⟩ := ih mid.length (by omega) mid rfl
      exact ⟨r :: rs, rest, .cons h hreads, hnone⟩

/-- **The walk** reads what can be read and ends there. -/
theorem walkLoop_reads (h : Reads crc maxRecordLen bs rs rest)
    (hnone : readFrame crc maxRecordLen rest = none) :
    ∀ {fuel offset : Nat}, bs.length < fuel →
      Ends crc maxRecordLen (walkLoop crc maxRecordLen fuel offset bs) rs
        (offset + (bs.length - rest.length)) rest := by
  induction h with
  | nil bs =>
    intro fuel offset hfuel
    obtain ⟨fuel, rfl⟩ : ∃ f, fuel = f + 1 := ⟨fuel - 1, by omega⟩
    simpa using @walkLoop_stop crc maxRecordLen fuel offset bs hnone
  | @cons bs mid rest r rs hr hrest ih =>
    intro fuel offset hfuel
    obtain ⟨fuel, rfl⟩ : ∃ f, fuel = f + 1 := ⟨fuel - 1, by omega⟩
    have hshrinks := readFrame_shrinks hr
    have hle := hrest.length_le
    have key : Ends crc maxRecordLen (walkLoop crc maxRecordLen fuel _ mid) rs
        (offset + (bs.length - mid.length) + (mid.length - rest.length)) rest :=
      ih hnone (by omega)
    have hoff : offset + (bs.length - mid.length) + (mid.length - rest.length) =
        offset + (bs.length - rest.length) := by omega
    rw [hoff] at key
    rw [walkLoop_read hr]
    exact ⟨congrArg _ key.records, key.validEndOffset, key.corrupted, key.truncated⟩

theorem walkSegment_reads {header : Bytes} (hheader : header.length = segmentHeaderLen)
    (h : Reads crc maxRecordLen bs rs rest) (hnone : readFrame crc maxRecordLen rest = none) :
    Ends crc maxRecordLen (walkSegment crc maxRecordLen (header ++ bs)) rs
      (segmentHeaderLen + (bs.length - rest.length)) rest := by
  unfold walkSegment
  rw [List.drop_left' hheader]
  exact walkLoop_reads h hnone (by rw [List.length_append]; omega)

theorem reads_frames {tail : Bytes} (h : Reads crc maxRecordLen tail rs rest)
    (frames : List (WalFrame crc maxRecordLen)) :
    Reads crc maxRecordLen (segmentBody frames ++ tail) (frames.map (·.record) ++ rs) rest := by
  induction frames with
  | nil => exact h
  | cons f fs ih =>
    have hcons : segmentBody (f :: fs) ++ tail = f.bytes ++ (segmentBody fs ++ tail) := by
      simp [segmentBody]
    rw [hcons]
    exact .cons (readFrame_bytes f _) ih

@[simp] theorem length_encodeSegmentHeader (segmentId : Nat) :
    (encodeSegmentHeader segmentId).length = segmentHeaderLen := by
  simp [encodeSegmentHeader, segmentMagic, segmentHeaderLen]

end RubixDb.Proof
