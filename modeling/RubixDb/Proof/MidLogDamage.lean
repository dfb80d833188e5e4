import RubixDb.Lib.Crc32c
import RubixDb.Proof.WalWalk

/-!
# Damage in the middle of a segment

One frame of a segment is overwritten with other bytes of the same length. The walk should
call the place corrupt whenever a frame written behind it is still readable, and cut the
segment off only when there is none.

It decides by the length field of the bytes it stands at. When that field, damaged but in
range, reaches to the end of the file or past it, the place looks like the last frame of
the log, torn; and the lost-sector rule looks for readable frames only behind the sector
boundary. `damage_told_iff` says exactly when intact frames are kept from being cut off.
-/

namespace RubixDb.Proof

open Lib List

variable {crc : Bytes → UInt32} {maxRecordLen : Nat} {bs rest : Bytes} {rs : List WalRecord}
    {last : WalFrame crc maxRecordLen}

theorem Reads.suffix (h : Reads crc maxRecordLen bs rs rest) : rest <:+ bs := by
  induction h with
  | nil => exact suffix_refl _
  | cons hr _ ih =>
    obtain ⟨-, rfl⟩ := readFrame_rest hr
    exact ih.trans (drop_suffix _ _)

/-- There is one place where no further frame can be read. -/
theorem Reads.unique {rest' : Bytes} {rs' : List WalRecord} (h : Reads crc maxRecordLen bs rs rest)
    (hnone : readFrame crc maxRecordLen rest = none) (h' : Reads crc maxRecordLen bs rs' rest')
    (hnone' : readFrame crc maxRecordLen rest' = none) : rest = rest' := by
  induction h generalizing rs' with
  | nil bs =>
    cases h' with
    | nil => rfl
    | cons hr _ =>
      rw [hr] at hnone
      cases hnone
  | cons hr _ ih =>
    cases h' with
    | nil =>
      rw [hr] at hnone'
      cases hnone'
    | cons hr' hrest' =>
      rw [hr] at hr'
      obtain ⟨rfl, rfl⟩ := Prod.mk.inj (Option.some.inj hr')
      exact ih hnone hrest'

theorem segmentBody_append (as bs : List (WalFrame crc maxRecordLen)) :
    segmentBody (as ++ bs) = segmentBody as ++ segmentBody bs := by
  simp [segmentBody]

theorem segmentBody_cons (f : WalFrame crc maxRecordLen) (fs : List (WalFrame crc maxRecordLen)) :
    segmentBody (f :: fs) = f.bytes ++ segmentBody fs := rfl

/-- The last frame ends the segment. -/
theorem last_suffix {fs : List (WalFrame crc maxRecordLen)}
    (h : fs.getLast? = some last) : last.bytes <:+ segmentBody fs := by
  obtain ⟨front, rfl⟩ := getLast?_eq_some_iff.mp h
  simp [segmentBody]

/-- A place in a list with one element marked: before it, at it or behind it. -/
theorem place_cases {α : Type} {before after pre post : List α} {f x : α}
    (h : pre ++ x :: post = before ++ f :: after) :
    (∃ as, pre = before ++ f :: as) ∨ (before = pre ∧ f = x) ∨
      ∃ bs, before = pre ++ x :: bs ∧ post = bs ++ f :: after := by
  obtain ⟨as, hbefore, hx⟩ | ⟨as, hpre, hf⟩ := append_eq_append_iff.mp h
  · cases as with
    | nil =>
      obtain ⟨rfl, -⟩ := List.cons.inj (hx : x :: post = f :: after)
      exact .inr (.inl ⟨by simpa using hbefore, rfl⟩)
    | cons a as =>
      obtain ⟨rfl, hpost⟩ := List.cons.inj (hx : x :: post = a :: (as ++ f :: after))
      exact .inr (.inr ⟨as, hbefore, hpost⟩)
  · cases as with
    | nil =>
      obtain ⟨rfl, -⟩ := List.cons.inj (hf : f :: after = x :: post)
      exact .inr (.inl ⟨by simpa using hpre.symm, rfl⟩)
    | cons a as =>
      obtain ⟨rfl, -⟩ := List.cons.inj (hf : f :: after = a :: (as ++ x :: post))
      exact .inl ⟨as, hpre⟩

/-- Bytes that end in a whole frame are not all zeros. -/
theorem nonzero_of_suffix {f : WalFrame crc maxRecordLen} (h : f.bytes <:+ bs) :
    ¬ ∀ b ∈ bs, b = 0 := by
  obtain ⟨body, hbytes, h9, -, hlt, -⟩ := exists_body f
  intro hz
  have hpre : f.bytes.take 4 = (frame crc body).take 4 := by rw [hbytes]
  exact frame_not_zero (by omega) hlt hpre fun b hb => hz b (h.subset hb)

/--
Nothing written is given up: if the walk reports a torn tail, then at no place behind its
end where one of the original `frames` was put can a frame be read.
-/
def NothingGivenUp (frames : List (WalFrame crc maxRecordLen)) (file : Bytes) : Prop :=
  (walkSegment crc maxRecordLen file).truncated = true →
    ∀ before f after, frames = before ++ f :: after →
      (walkSegment crc maxRecordLen file).validEndOffset ≤
        segmentHeaderLen + (segmentBody before).length →
      readFrame crc maxRecordLen (file.drop (segmentHeaderLen + (segmentBody before).length)) = none

/--
The damaged bytes, with the frames of `post` behind them up to the end of the file, do not
pass for a torn tail: where reading frames from there on first fails, and the last frame of
the segment is still ahead, the length field at that place is out of range or ends before
the end of the file, and the lost-sector rule does not apply.
-/
def DamageShows (fileLength : Nat) (damaged : Bytes) (post : List (WalFrame crc maxRecordLen)) :
    Prop :=
  ∀ rs rest last, Reads crc maxRecordLen (damaged ++ segmentBody post) rs rest →
    readFrame crc maxRecordLen rest = none → post.getLast? = some last →
    last.bytes.length ≤ rest.length →
    (maxRecordLen < announced rest ∨ 8 + announced rest < rest.length) ∧
      lostFirstSectorTail crc maxRecordLen (fileLength - rest.length) rest = false

/-- The last frame, if the walk stopped before it, is still where it was written. -/
theorem readFrame_last {file : Bytes} (hsuffix : last.bytes <:+ file) :
    readFrame crc maxRecordLen (file.drop (file.length - last.bytes.length)) =
      some (last.record, []) := by
  have hdrop : file.drop (file.length - last.bytes.length) = last.bytes :=
    (suffix_iff_eq_drop.mp hsuffix).symm
  rw [hdrop]
  simpa using readFrame_bytes last []

/--
**When damage to one frame is told from a torn tail.** The bytes of `x` are replaced by
others of the same length. Nothing readable behind the end of the walk is given up if and
only if the damage does not pass for a torn tail.
-/
theorem damage_told_iff (crc : Bytes → UInt32) (maxRecordLen segmentId : Nat)
    (pre post : List (WalFrame crc maxRecordLen)) (x : WalFrame crc maxRecordLen)
    (damaged : Bytes) (hlen : damaged.length = x.bytes.length) :
    let file := encodeSegmentHeader segmentId ++ (segmentBody pre ++ (damaged ++ segmentBody post))
    NothingGivenUp (pre ++ x :: post) file ↔ DamageShows file.length damaged post := by
  intro file
  obtain ⟨rs, rest, hreads, hnone⟩ := @exists_reads crc maxRecordLen (damaged ++ segmentBody post)
  have hle := hreads.length_le
  have hfile : file.length =
      segmentHeaderLen + (segmentBody pre).length + (damaged ++ segmentBody post).length := by
    simp only [file, length_append, length_encodeSegmentHeader]
    omega
  have hwalk : Ends crc maxRecordLen (walkSegment crc maxRecordLen file)
      (pre.map (·.record) ++ rs) (file.length - rest.length) rest := by
    have := walkSegment_reads (length_encodeSegmentHeader segmentId) (reads_frames hreads pre) hnone
    rwa [length_append, show segmentHeaderLen + ((segmentBody pre).length +
      (damaged ++ segmentBody post).length - rest.length) = file.length - rest.length by omega]
      at this
  have hend := hwalk.validEndOffset
  have hval : file = (encodeSegmentHeader segmentId ++ segmentBody pre) ++
      (damaged ++ segmentBody post) := by
    rw [append_assoc]
  clear_value file
  constructor
  · -- the last frame is ahead and readable, so the walk may not say torn
    intro hsafe rs' rest' last hreads' hnone' hlast hahead
    obtain rfl := hreads.unique hnone hreads' hnone'
    obtain ⟨front, hpost⟩ := getLast?_eq_some_iff.mp hlast
    have hsuffix : last.bytes <:+ file := by
      rw [hval]
      exact (last_suffix hlast).trans ((suffix_append _ _).trans (suffix_append _ _))
    have hpos : segmentHeaderLen + (segmentBody (pre ++ x :: front)).length =
        file.length - last.bytes.length := by
      rw [hfile, hpost]
      simp only [segmentBody_append, segmentBody_cons, length_append]
      simp only [segmentBody, flatMap_nil, length_nil]
      omega
    have hnot : (walkSegment crc maxRecordLen file).truncated ≠ true := by
      intro htorn
      have := hsafe htorn (pre ++ x :: front) last [] (by simp [hpost]) (by rw [hend, hpos]; omega)
      rw [hpos, readFrame_last hsuffix] at this
      cases this
    have h17 := length_bytes last
    have hd : Damaged crc maxRecordLen (file.length - rest.length) rest := by
      by_contra hd
      refine hnot (hwalk.truncated.mpr ⟨?_, hd⟩)
      intro hnil
      rw [hnil, length_nil] at hahead
      omega
    exact ⟨hd.behind, hd.notLost⟩
  · intro hshows htorn before f after hframes hbehind
    obtain ⟨-, hnd⟩ := hwalk.truncated.mp htorn
    obtain ⟨as, hpre⟩ | ⟨rfl, -⟩ | ⟨bs, hbefore, hpost⟩ := place_cases hframes
    · -- a frame before the damaged one was read
      have h17 := length_bytes f
      have : (segmentBody pre).length =
          (segmentBody before).length + (f.bytes.length + (segmentBody as).length) := by
        rw [hpre]
        simp only [segmentBody_append, segmentBody_cons, length_append]
      omega
    · -- the damaged frame itself: the walk stopped right there
      have hrest : rest = damaged ++ segmentBody post := hreads.suffix.eq_of_length (by omega)
      have hdrop : file.drop (segmentHeaderLen + (segmentBody before).length) = rest := by
        rw [hrest, hval]
        exact drop_left' (by simp)
      rw [hdrop, hnone]
    · -- a frame behind it: then the last one is ahead of the walk as well
      have hlast : post.getLast? = some ((f :: after).getLast (by simp)) := by
        rw [hpost, getLast?_append_of_ne_nil _ (by simp)]
        exact getLast?_eq_some_getLast _
      have hlastle := (last_suffix (getLast?_eq_some_getLast (cons_ne_nil f after))).length_le
      have hbeforelen : (segmentBody before).length =
          (segmentBody pre).length + (x.bytes.length + (segmentBody bs).length) := by
        rw [hbefore]
        simp only [segmentBody_append, segmentBody_cons, length_append]
      have hpostlen : (segmentBody post).length =
          (segmentBody bs).length + (segmentBody (f :: after)).length := by
        rw [hpost, segmentBody_append, length_append]
      rw [length_append] at hfile hle
      generalize (f :: after).getLast (by simp) = last at hlast hlastle
      have hahead : last.bytes.length ≤ rest.length := by omega
      have h17 := length_bytes last
      obtain ⟨hend', hlost⟩ := hshows rs rest last hreads hnone hlast hahead
      have hsuffix : last.bytes <:+ rest :=
        suffix_of_suffix_length_le
          ((last_suffix hlast).trans (suffix_append _ _)) hreads.suffix hahead
      exact absurd ⟨by omega, nonzero_of_suffix hsuffix, hend', hlost⟩ hnd

/-- Three records, and the length byte of the second changed from 19 to 200: the walk
reports a torn tail behind the first although the third is still there. -/
theorem damaged_length_hides_frame :
    ∃ bytes : Bytes × Bytes × Bytes,
      (do
        let a ← encodeWalFrame crc32c 1 (.put [1] [1]) defaultMaxRecordLen
        let b ← encodeWalFrame crc32c 2 (.put [2] [2]) defaultMaxRecordLen
        let c ← encodeWalFrame crc32c 3 (.put [3] [3]) defaultMaxRecordLen
        Except.ok (a, b, c)) = .ok bytes ∧
      bytes.2.1.take 1 = [19] ∧
      let file := encodeSegmentHeader 1 ++
        (bytes.1 ++ ((200 :: bytes.2.1.drop 1) ++ bytes.2.2))
      let out := walkSegment crc32c defaultMaxRecordLen file
      out.truncated = true ∧ out.validEndOffset = 24 + 27 ∧
        readFrame crc32c defaultMaxRecordLen (file.drop (24 + 27 + 27)) =
          some (⟨3, .put [3] [3]⟩, []) :=
  exists_ok (by decide +kernel)

/-- Two records, and the last byte of the first changed: the damage shows, and the walk
does not give the second one up. -/
theorem damaged_value_told :
    ∃ (x last : WalFrame crc32c defaultMaxRecordLen) (damaged : Bytes),
      damaged.length = x.bytes.length ∧ damaged ≠ x.bytes ∧
      NothingGivenUp [x, last]
        (encodeSegmentHeader 1 ++ (damaged ++ segmentBody [last])) := by
  obtain ⟨⟨b, c⟩, henc, hlen, hne, hnone, hend, hlost⟩ :
      ∃ bytes : Bytes × Bytes,
        (do
          let b ← encodeWalFrame crc32c 2 (.put [2] [2]) defaultMaxRecordLen
          let c ← encodeWalFrame crc32c 3 (.put [3] [3]) defaultMaxRecordLen
          Except.ok (b, c)) = .ok bytes ∧
        let rest := (bytes.1.take 26 ++ [9]) ++ bytes.2
        (bytes.1.take 26 ++ [9]).length = bytes.1.length ∧ bytes.1.take 26 ++ [9] ≠ bytes.1 ∧
        readFrame crc32c defaultMaxRecordLen rest = none ∧ 8 + announced rest < rest.length ∧
        lostFirstSectorTail crc32c defaultMaxRecordLen 24 rest = false :=
    exists_ok (by decide +kernel)
  obtain ⟨b, hb, henc⟩ := bind_eq_ok.mp henc
  obtain ⟨c, hc, henc⟩ := bind_eq_ok.mp henc
  obtain ⟨rfl, rfl⟩ := Prod.mk.inj (Except.ok.inj henc)
  have hbody : segmentBody [(⟨⟨3, .put [3] [3]⟩, c, ⟨by decide, trivial⟩, hc⟩ :
      WalFrame crc32c defaultMaxRecordLen)] = c := by
    simp [segmentBody]
  refine ⟨⟨⟨2, .put [2] [2]⟩, b, ⟨by decide, trivial⟩, hb⟩,
    ⟨⟨3, .put [3] [3]⟩, c, ⟨by decide, trivial⟩, hc⟩, b.take 26 ++ [9], hlen, hne, ?_⟩
  refine (damage_told_iff crc32c defaultMaxRecordLen 1 [] _ _ _ hlen).mpr ?_
  intro rs rest last hreads hnone' _ _
  rw [hbody] at hreads
  obtain rfl := (Reads.nil _).unique hnone hreads hnone'
  refine ⟨.inr hend, ?_⟩
  simpa [segmentBody, segmentHeaderLen] using hlost

end RubixDb.Proof
