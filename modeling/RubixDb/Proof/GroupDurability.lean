import RubixDb.Lib.Crc32c
import RubixDb.Proof.CommitSteps

/-!
# The durability watermark of group commit

The leader syncs one segment, outside every lock, and publishes a number that covers all
segments. What carries this is `Watermarked`: sealed segments are covered, nothing uncovered in the
active segment is at or below the watermark, and (`Aimed`) nothing at or below the leader's
target is written after its capture.

The watermark is sound, never falls, and never moves again once a leader has failed. What
does not hold is that `await_durable` answers `Ok` only at or below the watermark: a caller
that is elected leader while it waits for a number not given out yet is answered `Ok` for
whatever the fsync covered.
-/

namespace RubixDb.Proof

open Lib GroupCommit List

variable {crc : Bytes → UInt32} {maxRecordLen : Nat} {c c' : Committer crc maxRecordLen}
  {a : CommitterAct}

/-! ## The invariant -/

variable {g : Group crc maxRecordLen} {s : Segment crc maxRecordLen} {f : Frame crc maxRecordLen}
    {C : Committer crc maxRecordLen → CommitterAct → Prop}

/-- Nothing at or below the leader's target is left uncovered by its fsync: what is written
after the capture is above the target, and segments sealed since are covered. -/
def Aimed (nextSeq : Nat) (active : Segment crc maxRecordLen) : LeaderPhase → Prop
  | .elected | .published => True
  | .captured segmentId target => target < nextSeq ∧ segmentId ≤ active.id ∧
      (segmentId ≠ active.id → ∀ f ∈ active.log.items, target < f.seq)
  | .syncing segmentId target present => target < nextSeq ∧ segmentId ≤ active.id ∧
      ∀ f ∈ active.log.items.drop (if segmentId = active.id then present else 0), target < f.seq
  | .synced target => target < nextSeq ∧ ∀ f ∈ active.log.uncovered, target < f.seq

/-- What stands in the segments of this committer, oldest first. -/
def writtenFrames (c : Committer crc maxRecordLen) : List (Frame crc maxRecordLen) :=
  c.sealed.flatMap (·.log.items) ++ c.active.log.items

/-- The files and the watermark. -/
structure Watermarked (c : Committer crc maxRecordLen) : Prop where
  sealedSafe : ∀ s ∈ c.sealed, s.log.uncovered = []
  ahead : ∀ f ∈ c.active.log.uncovered, c.durableThrough < f.seq
  below : c.durableThrough < c.nextSeq
  /-- Every number given out has its frame. -/
  there : ∀ seq, c.firstSeq ≤ seq → seq < c.nextSeq → ∃ f ∈ writtenFrames c, f.seq = seq
  leader : ∀ l, c.leader = some l → Aimed c.nextSeq c.active l.phase

/-- The run `append_group` has put together carries the next numbers. -/
def Numbers (nextSeq : Nat) (g : Group crc maxRecordLen) : Prop :=
  g.run.map (·.2.seq) = List.range' nextSeq g.run.length ∧
    (g.failed = false → g.seq = nextSeq + g.run.length)

theorem watermarked_new {maxSegmentSize maxPendingWaiters durableSeq : Nat}
    {recovered : List (Segment crc maxRecordLen)} {active : Segment crc maxRecordLen} :
    Watermarked (Committer.new maxSegmentSize maxPendingWaiters recovered active durableSeq) where
  sealedSafe := by intro s hs; cases hs
  ahead := by
    intro f hf
    have hnone : f ∈ active.log.syncAll.uncovered := hf
    rw [SyncedLog.uncovered_syncAll] at hnone
    cases hnone
  below := Nat.lt_succ_self _
  there := by
    intro seq hfirst hnext
    have h₁ : durableSeq + 1 ≤ seq := hfirst
    have h₂ : seq < durableSeq + 1 := hnext
    omega
  leader := by intro l hl; cases hl

section Files

variable {active : Segment crc maxRecordLen} {frames : List (Frame crc maxRecordLen)}
  {nextSeq nextSeq' : Nat} {phase : LeaderPhase}

/-- Frames with later numbers are written. -/
theorem Aimed.append (h : Aimed nextSeq active phase) (hle : nextSeq ≤ nextSeq')
    (hframes : ∀ f ∈ frames, nextSeq ≤ f.seq) :
    Aimed nextSeq' { active with log := active.log.append frames } phase := by
  cases phase with
  | elected | published => trivial
  | captured segmentId target =>
    obtain ⟨hlt, hid, habove⟩ := h
    refine ⟨by omega, hid, fun hne f hf => ?_⟩
    rcases mem_append.mp hf with hf | hf
    · exact habove hne f hf
    · exact Nat.lt_of_lt_of_le hlt (hframes f hf)
  | syncing segmentId target present =>
    obtain ⟨hlt, hid, habove⟩ := h
    refine ⟨by omega, hid, fun f hf => ?_⟩
    have hf' : f ∈ (active.log.items ++ frames).drop
        (if segmentId = active.id then present else 0) := hf
    rw [drop_append] at hf'
    rcases mem_append.mp hf' with hf' | hf'
    · exact habove f hf'
    · exact Nat.lt_of_lt_of_le hlt (hframes f (mem_of_mem_drop hf'))
  | synced target =>
    obtain ⟨hlt, habove⟩ := h
    refine ⟨by omega, fun f hf => ?_⟩
    have hf' : f ∈ (active.log.append frames).uncovered := hf
    rw [SyncedLog.uncovered_append] at hf'
    rcases mem_append.mp hf' with hf' | hf'
    · exact habove f hf'
    · exact Nat.lt_of_lt_of_le hlt (hframes f hf')

/-- An fsync of the active segment, by whomever. -/
theorem Aimed.syncTo (h : Aimed nextSeq active phase) (n : Nat) :
    Aimed nextSeq { active with log := active.log.syncTo n } phase := by
  cases phase with
  | synced target =>
    exact ⟨h.1, fun f hf => h.2 f (SyncedLog.mem_uncovered_syncTo hf).1⟩
  | _ => exact h

theorem Aimed.rotate (h : Aimed nextSeq active phase) :
    Aimed nextSeq ({ id := active.id + 1 } : Segment crc maxRecordLen) phase := by
  cases phase with
  | elected | published => trivial
  | captured segmentId target =>
    exact ⟨h.1, Nat.le_succ_of_le h.2.1, fun _ f hf => by cases hf⟩
  | syncing segmentId target present =>
    refine ⟨h.1, Nat.le_succ_of_le h.2.1, fun f hf => ?_⟩
    cases mem_of_mem_drop hf
  | synced target => exact ⟨h.1, fun f hf => by cases mem_of_mem_drop hf⟩

theorem Watermarked.lose (h : Watermarked c) : Watermarked c.lose := { h with }

theorem Watermarked.rotate (h : Watermarked c) (out : RotateOutcome) :
    Watermarked (c.rotate out).1 := by
  have hstep := rotateStep c out
  generalize c.rotate out = r at hstep
  cases hstep with
  | refused => exact h
  | sealFails => exact h.lose
  | rotated =>
    exact {
      sealedSafe := by
        intro s hs
        rcases mem_append.mp hs with hs | hs
        · exact h.sealedSafe s hs
        · rw [mem_singleton.mp hs]
          exact SyncedLog.uncovered_syncAll
      ahead := by intro f hf; cases mem_of_mem_drop hf
      below := h.below
      there := by
        intro seq hfirst hnext
        obtain ⟨f, hf, hseq⟩ := h.there seq hfirst hnext
        refine ⟨f, ?_, hseq⟩
        unfold writtenFrames
        simpa [writtenFrames, SyncedLog.syncAll, SyncedLog.syncTo] using hf
      leader := fun l hl => (h.leader l hl).rotate }

/-- An fsync of the active segment succeeds. -/
theorem Watermarked.syncTo (h : Watermarked c) (n : Nat) :
    Watermarked { c with active := { c.active with log := c.active.log.syncTo n } } :=
  { h with
    ahead := fun f hf => h.ahead f (SyncedLog.mem_uncovered_syncTo hf).1
    leader := fun l hl => (h.leader l hl).syncTo n }

/-- The run is written and its numbers are given out. -/
theorem Watermarked.written (h : Watermarked c) {n : Nat}
    (hseqs : frames.map (·.seq) = List.range' c.nextSeq n) :
    Watermarked { c with
      active := { c.active with log := c.active.log.append frames }
      nextSeq := c.nextSeq + n } := by
  have hle : ∀ f ∈ frames, c.nextSeq ≤ f.seq := by
    intro f hf
    have hmem : f.seq ∈ List.range' c.nextSeq n := hseqs ▸ mem_map.mpr ⟨f, hf, rfl⟩
    exact (mem_range'_1.mp hmem).1
  exact {
    sealedSafe := h.sealedSafe
    ahead := by
      intro f hf
      have hf' : f ∈ (c.active.log.append frames).uncovered := hf
      rw [SyncedLog.uncovered_append] at hf'
      rcases mem_append.mp hf' with hf' | hf'
      · exact h.ahead f hf'
      · exact Nat.lt_of_lt_of_le h.below (hle f hf')
    below := Nat.lt_of_lt_of_le h.below (Nat.le_add_right _ _)
    there := by
      intro seq hfirst hnext
      by_cases hold : seq < c.nextSeq
      · obtain ⟨f, hf, hseq⟩ := h.there seq hfirst hold
        refine ⟨f, ?_, hseq⟩
        rcases mem_append.mp hf with hf | hf
        · exact mem_append_left _ hf
        · exact mem_append_right _ (mem_append_left _ hf)
      · -- one of the new numbers
        have hmem : seq ∈ frames.map (·.seq) := by
          rw [hseqs]
          exact mem_range'_1.mpr ⟨by omega, hnext⟩
        obtain ⟨f, hf, hseq⟩ := mem_map.mp hmem
        exact ⟨f, mem_append_right _ (mem_append_right _ hf), hseq⟩
    leader := fun l hl => (h.leader l hl).append (Nat.le_add_right _ _) hle }

end Files

/-- The numbers of the run are the next ones, so its last is the last given out. -/
theorem Numbers.next {nextSeq : Nat} (h : Numbers nextSeq g) :
    g.run.getLast?.elim nextSeq (·.2.seq + 1) = nextSeq + g.run.length := by
  rcases eq_nil_or_concat g.run with hrun | ⟨init, last, hrun⟩
  · rw [hrun]
    rfl
  · have hseqs := h.1
    rw [hrun, concat_eq_append, map_append, length_append, length_singleton,
      range'_concat] at hseqs
    have hlast := (append_inj' hseqs rfl).2
    rw [hrun, concat_eq_append, getLast?_concat, length_append,
      length_singleton]
    have hseq : last.2.seq = nextSeq + 1 * init.length := by simpa using hlast
    show last.2.seq + 1 = _
    omega

/-- `flush_run` keeps the files and the watermark. -/
theorem Watermarked.flushRun (h : Watermarked c) (hg : Numbers c.nextSeq g)
    (out : WriteOutcome) : Watermarked (c.flushRun g out) := by
  have hstep := writeStep c (g.run.map (·.2)) out
  unfold Committer.flushRun
  generalize c.writeRun (g.run.map (·.2)) out = r at hstep
  cases hstep with
  | refused | truncateFails | rollbackSyncFails => exact { h with }
  | written =>
    have hseqs : (g.run.map (·.2)).map (·.seq) = List.range' c.nextSeq g.run.length := by
      rw [map_map]
      exact hg.1
    rw [hg.next]
    exact { h.written hseqs with }
  | rolledBack => exact { h.syncTo c.active.log.items.length with }

/-- The batch inside `append_group` goes on with the next numbers. -/
def Grouped (c : Committer crc maxRecordLen) : Prop := ∀ g, c.group = some g → Numbers c.nextSeq g

theorem Grouped.rotate (h : Grouped c) (out : RotateOutcome) : Grouped (c.rotate out).1 := by
  have hstep := rotateStep c out
  generalize c.rotate out = r at hstep
  cases hstep <;> exact h

theorem Grouped.flushRun (h : Numbers c.nextSeq g)
    (out : WriteOutcome) : Grouped (c.flushRun g out) := by
  have hstep := writeStep c (g.run.map (·.2)) out
  unfold Committer.flushRun
  generalize c.writeRun (g.run.map (·.2)) out = r at hstep
  intro g' hg'
  cases hstep with
  | written =>
    cases hg'
    refine ⟨rfl, fun hfailed => ?_⟩
    rw [h.next]
    exact h.2 hfailed
  | refused | rolledBack | truncateFails | rollbackSyncFails =>
    cases hg'
    exact ⟨rfl, fun hfailed => by cases hfailed⟩

theorem grouped_step (h : Grouped c) (hs : CommitStep c a c') : Grouped c' := by
  cases hs with
  | drain =>
    intro g hg
    cases hg
    exact ⟨rfl, fun _ => rfl⟩
  | groupDrop hg =>
    intro g' hg'
    cases hg'
    exact ⟨(h _ hg).1, (h _ hg).2⟩
  | @groupPush g slot frame hg hfailed hseq =>
    intro g' hg'
    cases hg'
    obtain ⟨hseqs, hnext⟩ := h g hg
    refine ⟨?_, fun _ => ?_⟩
    · show (g.run ++ [(slot, frame)]).map (·.2.seq) = List.range' c.nextSeq (g.run ++ [_]).length
      rw [map_append, hseqs, length_append, length_singleton, range'_concat]
      show _ ++ [frame.seq] = _
      rw [hseq, hnext hfailed, Nat.one_mul]
    · show g.seq + 1 = c.nextSeq + (g.run ++ [_]).length
      rw [hnext hfailed, length_append, length_singleton, Nat.add_assoc]
  | @groupFlush g out hg => exact Grouped.flushRun (h g hg) out
  | @groupRotate g out | @rotate out => exact h.rotate out
  | @groupRotateFail g out slot hg hrun =>
    intro g' hg'
    cases hg'
    refine ⟨?_, fun hfailed => by cases hfailed⟩
    show g.run.map (·.2.seq) = List.range' _ g.run.length
    rw [hrun]
    rfl
  | groupEnd | combinerPanic => intro g hg; cases hg
  | _ => exact h

/-- **The files and the watermark in every step.** -/
theorem watermarked_step (h : Watermarked c) (hg : Grouped c) (hs : CommitStep c a c') :
    Watermarked c' := by
  cases hs with
  | @groupFlush g out hgroup => exact h.flushRun (hg g hgroup) out
  | @groupRotate g out | @rotate out => exact h.rotate out
  | @groupRotateFail g out => exact { h.rotate out with }
  | elected =>
    exact { h with
      leader := by
        intro l hl
        cases hl
        trivial }
  | @capture l hl hphase =>
    exact { h with
      leader := by
        intro l' hl'
        cases hl'
        have hlt : c.nextSeq - 1 < c.nextSeq := Nat.sub_lt (Nat.zero_lt_of_lt h.below) Nat.one_pos
        exact ⟨hlt, Nat.le_refl _, fun hne => absurd rfl hne⟩ }
  | @fsyncStart l segmentId target hl hphase =>
    have haim := h.leader l hl
    rw [hphase] at haim
    obtain ⟨hlt, hid, habove⟩ := haim
    exact { h with
      leader := by
        intro l' hl'
        cases hl'
        refine ⟨hlt, hid, fun f hf => ?_⟩
        -- the fsync sees everything in the active segment, or that segment is a later one
        by_cases hhere : segmentId = c.active.id
        · rw [if_pos hhere, drop_length] at hf
          cases hf
        · exact habove hhere f (mem_of_mem_drop hf) }
  | @fsyncHere l target present hl hphase =>
    have haim := h.leader l hl
    rw [hphase] at haim
    obtain ⟨hlt, _, habove⟩ := haim
    rw [if_pos rfl] at habove
    exact { h.syncTo present with
      leader := by
        intro l' hl'
        cases hl'
        exact ⟨hlt, fun f hf => habove f (SyncedLog.mem_uncovered_syncTo hf).2⟩ }
  | @fsyncBehind l segmentId target present hl hphase hne =>
    have haim := h.leader l hl
    rw [hphase] at haim
    obtain ⟨hlt, _, habove⟩ := haim
    rw [if_neg hne] at habove
    exact { h with
      leader := by
        intro l' hl'
        cases hl'
        exact ⟨hlt, fun f hf => habove f (SyncedLog.mem_of_uncovered hf)⟩ }
  | @publish l target hl hphase =>
    have haim := h.leader l hl
    rw [hphase] at haim
    exact { h with
      ahead := fun f hf => max_lt (h.ahead f hf) (haim.2 f hf)
      below := max_lt h.below haim.1
      leader := by
        intro l' hl'
        cases hl'
        trivial }
  | captureFails | fsyncFails | fsyncFailsBehind | finish | leaderPanic =>
    exact { h with leader := by intro l hl; cases hl }
  | _ => exact { h with }

/-! ## The watermark -/

/-- Every frame at or below the watermark has been covered by an fsync that succeeded, and
every number this committer has given out has such a frame. -/
structure Covered (c : Committer crc maxRecordLen) : Prop where
  frames : ∀ s ∈ c.recovered ++ (c.sealed ++ [c.active]), ∀ f ∈ s.log.items,
    f.seq ≤ c.durableThrough → f ∈ s.log.safe
  numbers : ∀ seq, c.firstSeq ≤ seq → seq ≤ c.durableThrough →
    ∃ s ∈ c.sealed ++ [c.active], ∃ f ∈ s.log.safe, f.seq = seq

theorem safe_of_uncovered_nil (h : s.log.uncovered = [])
    (hf : f ∈ s.log.items) : f ∈ s.log.safe := by
  rcases SyncedLog.mem_items.mp hf with hf | hf
  · exact hf
  · rw [h] at hf
    cases hf

theorem Watermarked.safe (h : Watermarked c) (hs : s ∈ c.sealed ++ [c.active])
    (hf : f ∈ s.log.items) (hle : f.seq ≤ c.durableThrough) : f ∈ s.log.safe := by
  rcases mem_append.mp hs with hs | hs
  · exact safe_of_uncovered_nil (h.sealedSafe s hs) hf
  · obtain rfl := mem_singleton.mp hs
    rcases SyncedLog.mem_items.mp hf with hf | hf
    · exact hf
    · have hlt := h.ahead f hf
      omega

theorem Watermarked.covered (h : Watermarked c) (hrec : ∀ s ∈ c.recovered, s.log.uncovered = []) :
    Covered c where
  frames := by
    intro s hs f hf hle
    rcases mem_append.mp hs with hs | hs
    · exact safe_of_uncovered_nil (hrec s hs) hf
    · exact h.safe hs hf hle
  numbers := by
    intro seq hfirst hle
    obtain ⟨f, hf, rfl⟩ := h.there seq hfirst (Nat.lt_of_le_of_lt hle h.below)
    rcases mem_append.mp hf with hf | hf
    · obtain ⟨s, hs, hf⟩ := mem_flatMap.mp hf
      exact ⟨s, mem_append_left _ hs, f, h.safe (mem_append_left _ hs) hf hle, rfl⟩
    · have hactive : c.active ∈ c.sealed ++ [c.active] := mem_append_right _ (by simp)
      exact ⟨c.active, hactive, f, h.safe hactive hf hle, rfl⟩

/-- Only a leader that has synced moves the watermark, and only up. -/
theorem durableThrough_step (hs : CommitStep c a c') :
    c'.durableThrough = c.durableThrough ∨
      c.leader ≠ none ∧ c.durableThrough ≤ c'.durableThrough := by
  cases hs with
  | @groupFlush g out =>
    obtain ⟨_, _, _, _, heq⟩ := flushRun_frame c g out
    exact .inl (by rw [heq])
  | @groupRotate _ out | @groupRotateFail _ out | @rotate out =>
    obtain ⟨_, _, _, heq⟩ := rotate_frame c out
    exact .inl (by rw [heq])
  | publish hl => exact .inr ⟨by rw [hl]; simp, Nat.le_max_left _ _⟩
  | _ => exact .inl rfl

theorem durableThrough_mono
    (h : Reach Committer.act C c c') : c.durableThrough ≤ c'.durableThrough :=
  h.invariant (P := fun x => c.durableThrough ≤ x.durableThrough) (Nat.le_refl _)
    fun hle _ hs => by
      rcases durableThrough_step (commitStep_of_act hs) with heq | ⟨_, hle'⟩
      · rw [heq]
        exact hle
      · exact Nat.le_trans hle hle'

/-! ## After a leader has failed -/

/-- The step ends a leader with a failed fsync or a panic. -/
def leaderEnds : CommitterAct → Bool
  | .fsyncDone succeeds => !succeeds
  | .leaderPanic => true
  | _ => false

/-- Nobody leads and nobody will. -/
structure Halted (c : Committer crc maxRecordLen) : Prop where
  poisoned : c.poisoned ≠ none
  leader : c.leader = none

theorem halted_step (h : Halted c) (hs : CommitStep c a c') : Halted c' := by
  cases hs with
  | @groupFlush g out =>
    obtain ⟨_, _, _, _, heq⟩ := flushRun_frame c g out
    rw [heq]
    exact { h with }
  | @groupRotate _ out | @groupRotateFail _ out | @rotate out =>
    obtain ⟨_, _, _, heq⟩ := rotate_frame c out
    rw [heq]
    exact { h with }
  | elected hp => exact absurd hp h.poisoned
  | capture hl | fsyncStart hl | fsyncHere hl | fsyncBehind hl | publish hl | captureFails hl
  | fsyncFails hl | fsyncFailsBehind hl | finish hl =>
    rw [h.leader] at hl
    cases hl
  | combinerPanic => exact ⟨by simp, h.leader⟩
  | leaderPanic => exact ⟨by simp, rfl⟩
  | _ => exact { h with }

theorem halted_of_leaderEnds (hs : CommitStep c a c') (ha : leaderEnds a = true) : Halted c' := by
  cases hs with
  | fsyncFails | fsyncFailsBehind => exact ⟨by simp [Committer.leaderFails], rfl⟩
  | leaderPanic => exact ⟨by simp, rfl⟩
  | _ => cases ha

theorem durableThrough_halted (hc : Halted c)
    (h : Reach Committer.act C c c') : c'.durableThrough = c.durableThrough := by
  have hboth : Halted c' ∧ c'.durableThrough = c.durableThrough :=
    h.invariant (P := fun x => Halted x ∧ x.durableThrough = c.durableThrough) ⟨hc, rfl⟩
      fun hx _ hs => by
        have hstep := commitStep_of_act hs
        refine ⟨halted_step hx.1 hstep, ?_⟩
        rcases durableThrough_step hstep with heq | ⟨hl, _⟩
        · rw [heq, hx.2]
        · exact absurd hx.1.leader hl
  exact hboth.2

/-! ## What `await_durable` answers -/

def isCapture : CommitterAct → Bool
  | .capture _ => true
  | _ => false

/-- When a leader captures its target, the number its own call waits for has been given
out. -/
def AwaitsAssigned (c : Committer crc maxRecordLen) (a : CommitterAct) : Prop :=
  isCapture a = true → ∀ l ∈ c.leader, l.seq < c.nextSeq

instance (c : Committer crc maxRecordLen) (a : CommitterAct) : Decidable (AwaitsAssigned c a) :=
  inferInstanceAs (Decidable (_ → ∀ l ∈ c.leader, _))

/-- The leader's own number is at or below what it will publish. -/
def Reaches (durableThrough seq : Nat) : LeaderPhase → Prop
  | .elected => True
  | .captured _ target | .syncing _ target _ | .synced target => seq ≤ target
  | .published => seq ≤ durableThrough

structure Answered (c : Committer crc maxRecordLen) : Prop where
  answers : ∀ seq, (seq, Answer.ok) ∈ c.answers → seq ≤ c.durableThrough
  leader : ∀ l, c.leader = some l → Reaches c.durableThrough l.seq l.phase

/-- One more answer, which if it is `Ok` is at or below the watermark. -/
theorem Answered.concat {seq : Nat} {ans : Answer} (h : Answered c)
    (hans : ans = .ok → seq ≤ c.durableThrough) :
    ∀ seq', (seq', Answer.ok) ∈ c.answers ++ [(seq, ans)] → seq' ≤ c.durableThrough := by
  intro seq' hmem
  rcases mem_append.mp hmem with hmem | hmem
  · exact h.answers seq' hmem
  · obtain ⟨rfl, hok⟩ := Prod.mk.inj (mem_singleton.mp hmem)
    exact hans hok.symm

theorem Answered.reaches {l : Leader} {phase : LeaderPhase} (h : Answered c)
    (hl : c.leader = some l) (hphase : l.phase = phase) : Reaches c.durableThrough l.seq phase :=
  hphase ▸ h.leader l hl

/-- The leader goes on to a phase that still reaches its own number. -/
theorem Answered.goOn {seq : Nat} {phase : LeaderPhase} (h : Answered c)
    (hl : Reaches c.durableThrough seq phase) {active : Segment crc maxRecordLen}
    {waiters : List Nat} :
    Answered { c with leader := some ⟨seq, phase⟩, active := active, waiters := waiters } :=
  { h with
    leader := by
      intro l hl'
      cases hl'
      exact hl }

/-- `Ok` is answered at or below the watermark, step by step. -/
theorem answered_step (h : Answered c) (hC : AwaitsAssigned c a) (hs : CommitStep c a c') :
    Answered c' := by
  cases hs with
  | @groupFlush g out =>
    obtain ⟨_, _, _, _, heq⟩ := flushRun_frame c g out
    rw [heq]
    exact { h with }
  | @groupRotate _ out | @groupRotateFail _ out | @rotate out =>
    obtain ⟨_, _, _, heq⟩ := rotate_frame c out
    rw [heq]
    exact { h with }
  | called hans | woken hans | timedOut hans => exact { h with answers := h.concat hans }
  | @elected i seq => exact @Answered.goOn _ _ c seq .elected h trivial _ _
  | @capture l hl =>
    refine @Answered.goOn _ _ c l.seq (.captured c.active.id (c.nextSeq - 1)) h ?_ _ _
    exact Nat.le_sub_one_of_lt (hC rfl l hl)
  | @fsyncStart l segmentId target hl hphase =>
    have hreach := h.reaches hl hphase
    exact @Answered.goOn _ _ c l.seq (.syncing segmentId target _) h hreach _ _
  | @fsyncHere l target present hl hphase | @fsyncBehind l segmentId target present hl hphase =>
    have hreach := h.reaches hl hphase
    exact @Answered.goOn _ _ c l.seq (.synced target) h hreach _ _
  | @publish l target hl hphase =>
    have hreach := h.reaches hl hphase
    exact {
      answers := fun seq hmem => Nat.le_trans (h.answers seq hmem) (Nat.le_max_left _ _)
      leader := by
        intro l' hl'
        cases hl'
        exact Nat.le_trans hreach (Nat.le_max_right _ _) }
  | @finish l hl hphase =>
    have hreach := h.reaches hl hphase
    exact {
      answers := h.concat fun _ => hreach
      leader := by intro l' hl'; cases hl' }
  | captureFails | fsyncFails | fsyncFailsBehind =>
    exact {
      answers := h.concat fun hok => by cases hok
      leader := by intro l' hl'; cases hl' }
  | leaderPanic => exact { h with leader := by intro l' hl'; cases hl' }
  | _ => exact { h with }

section Committers

variable {maxSegmentSize maxPendingWaiters durableSeq : Nat}
  {recovered : List (Segment crc maxRecordLen)} {active : Segment crc maxRecordLen}

/-- The segments found when the committer was made stay as they are. -/
theorem recovered_step (hs : CommitStep c a c') : c'.recovered = c.recovered := by
  cases hs with
  | @groupFlush g out =>
    obtain ⟨_, _, _, _, heq⟩ := flushRun_frame c g out
    rw [heq]
  | @groupRotate _ out | @groupRotateFail _ out | @rotate out =>
    obtain ⟨_, _, _, heq⟩ := rotate_frame c out
    rw [heq]
  | _ => rfl

theorem watermarked_reach (h : Reach Committer.act C
      (Committer.new maxSegmentSize maxPendingWaiters recovered active durableSeq) c) :
    Watermarked c ∧ Grouped c ∧ c.recovered = recovered :=
  h.invariant (P := fun x => Watermarked x ∧ Grouped x ∧ x.recovered = recovered)
    ⟨watermarked_new, fun g hg => (by cases hg), rfl⟩ fun hx _ hs => by
      have hstep := commitStep_of_act hs
      exact ⟨watermarked_step hx.1 hx.2.1 hstep, grouped_step hx.2.1 hstep,
        (recovered_step hstep).trans hx.2.2⟩

/-- **Group commit keeps its promise** to callers that wait for a number already given out,
on a WAL whose sealed segments were synced: every frame at or below the watermark is
covered, `Ok` is answered only at or below it, it never falls, and once a leader's fsync has
failed or a leader has panicked it never moves again. -/
theorem group_commit_durability
    (hrec : ∀ s ∈ recovered, s.log.uncovered = [])
    (h : Reach Committer.act AwaitsAssigned
      (Committer.new maxSegmentSize maxPendingWaiters recovered active durableSeq) c) :
    Covered c ∧ (∀ seq, (seq, Answer.ok) ∈ c.answers → seq ≤ c.durableThrough) ∧
      (∀ c', Reach Committer.act AwaitsAssigned c c' → c.durableThrough ≤ c'.durableThrough) ∧
      ∀ a c₁ c₂, leaderEnds a = true → c.act a = some c₁ →
        Reach Committer.act AwaitsAssigned c₁ c₂ → c₂.durableThrough = c₁.durableThrough := by
  obtain ⟨hkept, _, hsame⟩ := watermarked_reach h
  have hans : Answered c :=
    h.invariant ⟨fun seq hmem => (by cases hmem), fun l hl => (by cases hl)⟩
      fun hx hC hs => answered_step hx hC (commitStep_of_act hs)
  refine ⟨hkept.covered (hsame ▸ hrec), hans.answers, fun c' => durableThrough_mono, ?_⟩
  intro a c₁ c₂ ha hstep hreach
  exact durableThrough_halted (halted_of_leaderEnds (commitStep_of_act hstep) ha) hreach

end Committers

/-- A caller waits for number 5 before any number was given out; as the leader of an empty
batch it is told that 5 is durable. -/
theorem unassigned_told_durable :
    ∃ c : Committer crc32c 1000, Reach Committer.act (fun _ _ => True)
        (Committer.new 4096 64 [] { id := 1 } 0) c ∧
      (5, Answer.ok) ∈ c.answers ∧ c.durableThrough = 0 := by
  exact exists_reach_of_run
    [.call 5, .wake 0, .capture false, .fsyncStart, .fsyncDone true, .publish, .finish]
    (by decide +kernel)

/-- A segment that was sealed before, with the one frame in it synced. -/
def sealedSegment : Segment crc32c 1000 :=
  { id := 1, log := ⟨[⟨1, .put [1] [2], _, rfl⟩], 1, by decide⟩ }

/-- A run the condition allows: one append behind it, made durable by the caller itself. -/
theorem appended_told_durable :
    ∃ c : Committer crc32c 1000, Reach Committer.act AwaitsAssigned
        (Committer.new 4096 64 [sealedSegment] { id := 2 } 1) c ∧
      ((2, Answer.ok) ∈ c.answers ∧ c.durableThrough = 2) ∧ Covered c := by
  obtain ⟨c, hreach, hans⟩ : ∃ c : Committer crc32c 1000, Reach Committer.act AwaitsAssigned
      (Committer.new 4096 64 [sealedSegment] { id := 2 } 1) c ∧
      ((2, Answer.ok) ∈ c.answers ∧ c.durableThrough = 2) :=
    exists_reach_of_run
      [.append (.put [1] [3]), .drain, .groupNext, .groupFlush .written, .groupEnd, .handOver,
        .call 2, .wake 0, .capture false, .fsyncStart, .fsyncDone true, .publish, .finish]
      (by decide +kernel)
  have hrec : ∀ s ∈ [sealedSegment], s.log.uncovered = [] := forall_mem_singleton.mpr rfl
  exact ⟨c, hreach, hans, (group_commit_durability hrec hreach).1⟩

end RubixDb.Proof
