import RubixDb.Proof.GroupDurability

/-!
# Failed fsyncs

An fsync that fails may leave what it was to cover lost for good, and a later fsync of the
same file can succeed all the same. `Committer.lost` keeps the frames this has happened to.

A failed fsync of a leader poisons the committer, so nothing it was to cover is ever
reported. The fsync that seals a segment, and the one after a write was rolled back, have
error paths of their own that do not: a later leader, or one that has already captured the
segment, goes on to report those frames. `FailsSafely` says when these may fail.
-/

namespace RubixDb.Proof

open Lib GroupCommit

variable {crc : Bytes → UInt32} {maxRecordLen : Nat} {c c' : Committer crc maxRecordLen}
  {a : CommitterAct}

/-! ## The condition -/

/-- A leader that has come this far will not answer for the frame `lost`, neither by what it
publishes nor to its own call, which waits for `seq`. -/
def Spares (lost seq : Nat) : LeaderPhase → Prop
  | .elected => True
  | .captured _ target | .syncing _ target _ | .synced target => target < lost ∧ seq ≠ lost
  | .published => seq ≠ lost

instance (lost seq : Nat) : ∀ phase, Decidable (Spares lost seq phase)
  | .elected => isTrue trivial
  | .captured _ target => inferInstanceAs (Decidable (target < lost ∧ seq ≠ lost))
  | .syncing _ target _ => inferInstanceAs (Decidable (target < lost ∧ seq ≠ lost))
  | .synced target => inferInstanceAs (Decidable (target < lost ∧ seq ≠ lost))
  | .published => inferInstanceAs (Decidable (seq ≠ lost))

/-- The step is a rotation whose sealing fsync fails. -/
def failsSeal : CommitterAct → Bool
  | .rotate out | .groupRotate out => out = .sealFails
  | _ => false

/-- The step is a write whose rollback fails in its fsync. -/
def failsRollback : CommitterAct → Bool
  | .groupFlush out => out = .rollbackSyncFails
  | _ => false

/-- Nobody will report the frame: no new leader is elected and none has yet to capture. -/
def NoLeaderFor (c : Committer crc maxRecordLen) (seq : Nat) : Prop :=
  c.poisoned ≠ none ∧ ∀ l ∈ c.leader, l.phase ≠ .elected ∧ Spares seq l.seq l.phase

/-- A sealing fsync fails only if no frame it was to cover can still be reported; one after
a rollback, which poisons the segment, only if no leader that has captured the segment can
report one. -/
structure FailsSafely (c : Committer crc maxRecordLen) (a : CommitterAct) : Prop where
  sealing : failsSeal a = true → c.active.poisoned = false →
    ∀ f ∈ c.active.log.uncovered, NoLeaderFor c f.seq
  rollback : failsRollback a = true → c.active.poisoned = false →
    ∀ f ∈ c.active.log.uncovered, ∀ l ∈ c.leader, Spares f.seq l.seq l.phase

instance (c : Committer crc maxRecordLen) (seq : Nat) : Decidable (NoLeaderFor c seq) :=
  inferInstanceAs (Decidable (_ ∧ ∀ l ∈ c.leader, _ ∧ _))

instance (c : Committer crc maxRecordLen) (a : CommitterAct) : Decidable (FailsSafely c a) :=
  decidable_of_iff
    ((failsSeal a = true → c.active.poisoned = false →
        ∀ f ∈ c.active.log.uncovered, NoLeaderFor c f.seq) ∧
      (failsRollback a = true → c.active.poisoned = false →
        ∀ f ∈ c.active.log.uncovered, ∀ l ∈ c.leader, Spares f.seq l.seq l.phase))
    ⟨fun h => ⟨h.1, h.2⟩, fun h => ⟨h.sealing, h.rollback⟩⟩

/-! ## What was lost stays unreported -/

/-- No frame that was lost has been reported since. -/
def Untold (c : Committer crc maxRecordLen) : Prop :=
  ∀ p ∈ c.lost, c.durableThrough < p.1 ∧ p.2 ≤ c.answers.length ∧
    (p.1, Answer.ok) ∉ c.answers.drop p.2

/-- None will be: the leader spares them, and there is no other to come, or it will find the
segment poisoned. -/
structure Stopped (c : Committer crc maxRecordLen) : Prop where
  leader : ∀ p ∈ c.lost, ∀ l, c.leader = some l → Spares p.1 l.seq l.phase
  next : c.lost ≠ [] → c.active.poisoned = true ∨
    c.poisoned ≠ none ∧ ∀ l, c.leader = some l → l.phase ≠ .elected

theorem mem_lose {p : Nat × Nat} (h : p ∈ c.lose.lost) :
    p ∈ c.lost ∨ ∃ f ∈ c.active.log.uncovered, p = (f.seq, c.answers.length) := by
  rcases List.mem_append.mp h with h | h
  · exact .inl h
  · obtain ⟨f, hf, rfl⟩ := List.mem_map.mp h
    exact .inr ⟨f, hf, rfl⟩

theorem Untold.lose (h : Untold c) (hw : Watermarked c) : Untold c.lose := by
  intro p hp
  rcases mem_lose hp with hp | ⟨f, hf, rfl⟩
  · exact h p hp
  · refine ⟨hw.ahead f hf, Nat.le_refl _, ?_⟩
    show _ ∉ c.answers.drop c.answers.length
    rw [List.drop_length]
    exact List.not_mem_nil

/-- One more answer, which if it is `Ok` is not for a frame that was lost. -/
theorem Untold.concat {seq : Nat} {ans : Answer} (h : Untold c)
    (hans : ans = .ok → ∀ p ∈ c.lost, p.1 ≠ seq) :
    ∀ p ∈ c.lost, c.durableThrough < p.1 ∧ p.2 ≤ (c.answers ++ [(seq, ans)]).length ∧
      (p.1, Answer.ok) ∉ (c.answers ++ [(seq, ans)]).drop p.2 := by
  intro p hp
  obtain ⟨habove, hle, hnot⟩ := h p hp
  refine ⟨habove, ?_, fun hmem => ?_⟩
  · rw [List.length_append]
    exact Nat.le_trans hle (Nat.le_add_right _ _)
  · rw [List.drop_append_of_le_length hle] at hmem
    rcases List.mem_append.mp hmem with hmem | hmem
    · exact hnot hmem
    · obtain ⟨hseq, hok⟩ := Prod.mk.inj (List.mem_singleton.mp hmem)
      exact hans hok.symm p hp hseq

/-- What is at or below the watermark was not lost. -/
theorem Untold.ne_of_le {seq : Nat} (h : Untold c) (hle : seq ≤ c.durableThrough) :
    ∀ p ∈ c.lost, p.1 ≠ seq := by
  intro p hp heq
  have hlt := (h p hp).1
  omega

theorem Untold.rotate (h : Untold c) (hw : Watermarked c) (out : RotateOutcome) :
    Untold (c.rotate out).1 := by
  have hstep := rotateStep c out
  generalize c.rotate out = r at hstep
  cases hstep with
  | refused | rotated => exact h
  | sealFails => exact h.lose hw

theorem Untold.flushRun {g : Group crc maxRecordLen} (h : Untold c) (hw : Watermarked c)
    (out : WriteOutcome) : Untold (c.flushRun g out) := by
  have hstep := writeStep c (g.run.map (·.2)) out
  unfold Committer.flushRun
  generalize c.writeRun (g.run.map (·.2)) out = r at hstep
  cases hstep with
  | refused | written | rolledBack | truncateFails => exact h
  | rollbackSyncFails => exact h.lose hw

theorem untold_step (h : Untold c) (hw : Watermarked c) (hstop : Stopped c)
    (hs : CommitStep c a c') : Untold c' := by
  cases hs with
  | @groupFlush g out => exact h.flushRun hw out
  | @groupRotate _ out | @groupRotateFail _ out | @rotate out => exact h.rotate hw out
  | called hans | woken hans | timedOut hans => exact h.concat fun hok => h.ne_of_le (hans hok)
  | captureFails | fsyncFailsBehind => exact h.concat fun hok => by cases hok
  | fsyncFails => exact (h.lose hw).concat fun hok => by cases hok
  | @publish l target hl hphase =>
    intro p hp
    have hspares := hstop.leader p hp l hl
    rw [hphase] at hspares
    obtain ⟨habove, htold⟩ := h p hp
    exact ⟨max_lt habove hspares.1, htold⟩
  | @finish l hl hphase =>
    refine h.concat fun _ p hp => ?_
    have hspares := hstop.leader p hp l hl
    rw [hphase] at hspares
    exact fun heq => hspares heq.symm
  | _ => exact h

theorem Stopped.rotate (h : Stopped c) {out : RotateOutcome}
    (hsafe : out = .sealFails → c.active.poisoned = false →
      ∀ f ∈ c.active.log.uncovered, NoLeaderFor c f.seq) : Stopped (c.rotate out).1 := by
  have hstep := rotateStep c out
  generalize c.rotate out = r at hstep
  cases hstep with
  | refused => exact h
  | sealFails hp =>
    have hnone := hsafe rfl hp
    exact {
      leader := by
        intro p hp' l hl
        rcases mem_lose hp' with hp' | ⟨f, hf, rfl⟩
        · exact h.leader p hp' l hl
        · exact ((hnone f hf).2 l hl).2
      next := by
        intro hne
        obtain ⟨p, hp'⟩ := List.exists_mem_of_ne_nil _ hne
        rcases mem_lose hp' with hp' | ⟨f, hf, rfl⟩
        · exact h.next (List.ne_nil_of_mem hp')
        · exact .inr ⟨(hnone f hf).1, fun l hl => ((hnone f hf).2 l hl).1⟩ }
  | rotated hp =>
    exact { h with
      next := by
        intro hne
        rcases h.next hne with hpois | hnext
        · rw [hp] at hpois
          cases hpois
        · exact .inr hnext }

theorem Stopped.flushRun {g : Group crc maxRecordLen} (h : Stopped c) {out : WriteOutcome}
    (hsafe : out = .rollbackSyncFails → c.active.poisoned = false →
      ∀ f ∈ c.active.log.uncovered, ∀ l ∈ c.leader, Spares f.seq l.seq l.phase) :
    Stopped (c.flushRun g out) := by
  have hstep := writeStep c (g.run.map (·.2)) out
  unfold Committer.flushRun
  generalize c.writeRun (g.run.map (·.2)) out = r at hstep
  cases hstep with
  | refused | written | rolledBack => exact { h with }
  | truncateFails => exact { h with next := fun _ => .inl rfl }
  | rollbackSyncFails hp =>
    exact {
      leader := by
        intro p hp' l hl
        rcases mem_lose hp' with hp' | ⟨f, hf, rfl⟩
        · exact h.leader p hp' l hl
        · exact hsafe rfl hp f hf l hl
      next := fun _ => .inl rfl }

/-- Nobody leads any more and the committer is poisoned. -/
theorem stopped_of_halted (h : Halted c) : Stopped c where
  leader := by
    intro p _ l hl
    rw [h.leader] at hl
    cases hl
  next := by
    intro _
    refine .inr ⟨h.poisoned, fun l hl => ?_⟩
    rw [h.leader] at hl
    cases hl

theorem Stopped.spares {l : Leader} {phase : LeaderPhase} (h : Stopped c) (hl : c.leader = some l)
    (hphase : l.phase = phase) : ∀ p ∈ c.lost, Spares p.1 l.seq phase :=
  fun p hp => hphase ▸ h.leader p hp l hl

/-- The leader goes on without changing what it will answer for. -/
theorem Stopped.goOn {seq : Nat} {phase : LeaderPhase} (h : Stopped c) (hne : phase ≠ .elected)
    (hspares : ∀ p ∈ c.lost, Spares p.1 seq phase) {log : SyncedLog (Frame crc maxRecordLen)}
    {durableThrough : Nat} :
    Stopped { c with
      leader := some ⟨seq, phase⟩
      active := { c.active with log := log }
      durableThrough := durableThrough } where
  leader := by
    intro p hp l hl
    cases hl
    exact hspares p hp
  next := by
    intro hlost
    rcases h.next hlost with hpois | hnext
    · exact .inl hpois
    · refine .inr ⟨hnext.1, fun l hl => ?_⟩
      cases hl
      exact hne

theorem stopped_step (h : Stopped c) (hsafe : FailsSafely c a) (hs : CommitStep c a c') :
    Stopped c' := by
  cases hs with
  | @groupFlush g out =>
    exact h.flushRun fun hout => hsafe.rollback (by simp [failsRollback, hout])
  | @groupRotate g out | @rotate out =>
    exact h.rotate fun hout => hsafe.sealing (by simp [failsSeal, hout])
  | @groupRotateFail g out =>
    exact { h.rotate fun hout => hsafe.sealing (by simp [failsSeal, hout]) with }
  | elected hp =>
    -- a new leader is no threat: what was lost stands in a segment it cannot capture
    exact {
      leader := by
        intro p _ l hl
        cases hl
        trivial
      next := fun hne => (h.next hne).imp_right fun hnext => absurd hp hnext.1 }
  | @capture l hl hphase hactive =>
    -- nothing was lost so far, or the capture would have failed
    have hnone : c.lost = [] := by
      by_contra hne
      rcases h.next hne with hpois | hnext
      · rw [hactive] at hpois
        cases hpois
      · exact hnext.2 l hl hphase
    refine @Stopped.goOn _ _ c l.seq (.captured c.active.id _) h (by simp) ?_ c.active.log _
    intro p hp
    rw [hnone] at hp
    cases hp
  | @fsyncStart l segmentId target hl hphase =>
    have hspares := h.spares hl hphase
    exact @Stopped.goOn _ _ c l.seq (.syncing segmentId target _) h (by simp) hspares c.active.log _
  | @fsyncHere l target present hl hphase =>
    have hspares := h.spares hl hphase
    exact @Stopped.goOn _ _ c l.seq (.synced target) h (by simp) hspares _ _
  | @fsyncBehind l segmentId target present hl hphase =>
    have hspares := h.spares hl hphase
    exact @Stopped.goOn _ _ c l.seq (.synced target) h (by simp) hspares c.active.log _
  | @publish l target hl hphase =>
    exact @Stopped.goOn _ _ c l.seq .published h (by simp)
      (fun p hp => (h.spares hl hphase p hp).2) c.active.log _
  | captureFails | fsyncFails | fsyncFailsBehind =>
    exact stopped_of_halted ⟨by simp [Committer.leaderFails], rfl⟩
  | leaderPanic => exact stopped_of_halted ⟨by simp, rfl⟩
  | finish =>
    exact {
      leader := by intro p _ l hl; cases hl
      next := fun hne => (h.next hne).imp_right fun hnext => ⟨hnext.1, fun l hl => by cases hl⟩ }
  | combinerPanic =>
    exact { h with
      next := fun hne => (h.next hne).imp_right fun hnext => ⟨by simp, hnext.2⟩ }
  | _ => exact { h with }

section Committers

variable {maxSegmentSize maxPendingWaiters durableSeq : Nat}
  {recovered : List (Segment crc maxRecordLen)} {active : Segment crc maxRecordLen}

/-- **A failed fsync is never forgotten**, provided the fsyncs that seal a segment and those
after a rollback fail only where nobody can report their frames any more: what an fsync has
failed to cover is not answered `Ok` afterwards. -/
theorem failed_fsync_not_forgotten
    (h : Reach Committer.act FailsSafely
      (Committer.new maxSegmentSize maxPendingWaiters recovered active durableSeq) c) :
    ∀ p ∈ c.lost, (p.1, Answer.ok) ∉ c.answers.drop p.2 := by
  have hall : (Watermarked c ∧ Grouped c) ∧ Untold c ∧ Stopped c :=
    h.invariant (P := fun x => (Watermarked x ∧ Grouped x) ∧ Untold x ∧ Stopped x)
      ⟨⟨watermarked_new, fun g hg => (by cases hg)⟩, fun p hp => (by cases hp),
        fun p hp => (by cases hp), fun hne => absurd rfl hne⟩
      fun hx hsafe hs => by
        have hstep := commitStep_of_act hs
        obtain ⟨⟨hw, hg⟩, hu, hst⟩ := hx
        exact ⟨⟨watermarked_step hw hg hstep, grouped_step hg hstep⟩,
          untold_step hu hw hst hstep, stopped_step hst hsafe hstep⟩
  exact fun p hp => (hall.2.1 p hp).2.2

end Committers

/-- A frame is written, the fsync that is to seal its segment fails, and the next leader's
fsync of the same segment succeeds: the frame is reported durable. -/
theorem failed_seal_forgotten :
    ∃ c : Committer crc32c 1000, Reach Committer.act (fun _ _ => True)
        (Committer.new 4096 64 [] { id := 1 } 0) c ∧
      (1, 0) ∈ c.lost ∧ (1, Answer.ok) ∈ c.answers.drop 0 := by
  exact exists_reach_of_run
    [.append (.put [1] [2]), .drain, .groupNext, .groupFlush .written, .groupEnd, .handOver,
      .rotate .sealFails, .call 1, .wake 0, .capture false, .fsyncStart, .fsyncDone true, .publish,
      .finish]
    (by decide +kernel)

/-- A run the condition allows: the leader's fsync fails, then the one that is to seal the
segment, and the caller asks again. -/
theorem failed_leader_fsync_remembered :
    ∃ c : Committer crc32c 1000, Reach Committer.act FailsSafely
        (Committer.new 4096 64 [] { id := 1 } 0) c ∧
      (c.lost = [(1, 0), (1, 1)] ∧ c.answers = [(1, .io), (1, .poisoned .fsyncFailed)]) ∧
      ∀ p ∈ c.lost, (p.1, Answer.ok) ∉ c.answers.drop p.2 := by
  obtain ⟨c, hreach, hans⟩ : ∃ c : Committer crc32c 1000, Reach Committer.act FailsSafely
      (Committer.new 4096 64 [] { id := 1 } 0) c ∧
      (c.lost = [(1, 0), (1, 1)] ∧ c.answers = [(1, .io), (1, .poisoned .fsyncFailed)]) :=
    exists_reach_of_run
      [.append (.put [1] [2]), .drain, .groupNext, .groupFlush .written, .groupEnd, .handOver,
        .call 1, .wake 0, .capture false, .fsyncStart, .fsyncDone false, .rotate .sealFails,
        .call 1, .wake 0]
      (by decide +kernel)
  exact ⟨c, hreach, hans, failed_fsync_not_forgotten hreach⟩

end RubixDb.Proof
