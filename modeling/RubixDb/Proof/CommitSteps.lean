import RubixDb.Lib.Run
import RubixDb.Wal.GroupCommit

/-!
# What one step of group commit can do

`CommitStep` lists every way a step can end, `RotateStep` and `WriteStep` every way a
rotation or the write of a run can. The invariants are proved by cases on these; nothing
else unfolds `Committer.act`.
-/

namespace RubixDb.Proof

open Lib GroupCommit

variable {crc : Bytes → UInt32} {maxRecordLen : Nat}

/-- One step of the committer, by outcome. -/
inductive CommitStep (c : Committer crc maxRecordLen) :
    CommitterAct → Committer crc maxRecordLen → Prop where
  | append : CommitStep c (.append op) { c with
      queue := c.queue ++ [(c.nextSlot, op)]
      nextSlot := c.nextSlot + 1
      combiner := some (c.combiner.getD c.nextSlot) }
  | drainEmpty : CommitStep c .drain
      { c with done := c.done ++ [(own, .error .emptyQueue)] }
  | drain : c.group = none → CommitStep c .drain { c with
      queue := c.queue.drop appendCombineMaxOps
      group := some { pending := c.queue.take appendCombineMaxOps, seq := c.nextSeq } }
  | groupDrop : c.group = some g →
      CommitStep c .groupNext { c with group := some (Committer.dropRequest g slot err) }
  | groupPush {frame : Frame crc maxRecordLen} :
      c.group = some g → g.failed = false → frame.seq = g.seq →
      CommitStep c .groupNext { c with group := some { g with
        pending := g.pending.tail
        run := g.run ++ [(slot, frame)]
        seq := g.seq + 1 } }
  | groupFlush : c.group = some g →
      g.run ≠ [] → CommitStep c (.groupFlush out) (c.flushRun g out)
  | groupRotate : c.group = some g →
      (c.rotate out).2 = true → CommitStep c (.groupRotate out) (c.rotate out).1
  | groupRotateFail :
      c.group = some g → g.run = [] → (c.rotate out).2 = false →
      CommitStep c (.groupRotate out) { (c.rotate out).1 with
        group := some { Committer.dropRequest g slot .rotate with failed := true } }
  | groupEnd {g : Group crc maxRecordLen} :
      CommitStep c .groupEnd { c with group := none, done := c.done ++ g.results }
  | handOver : CommitStep c .handOver { c with combiner := next }
  | combinerPanic :
      CommitStep c .combinerPanic { c with
        combiner := none
        group := none
        queue := []
        done := done
        poisoned := some .leaderPanicked }
  | rotate : c.group = none → CommitStep c (.rotate out) (c.rotate out).1
  /-- A call is answered on the spot. -/
  | called : (ans = .ok → seq ≤ c.durableThrough) →
      CommitStep c (.call seq) (c.answer seq ans)
  | waits : CommitStep c (.call seq) { c with waiters := c.waiters ++ [seq] }
  | woken : (ans = .ok → seq ≤ c.durableThrough) →
      CommitStep c (.wake i) (c.leave i seq ans)
  | timedOut : (ans = .ok → seq ≤ c.durableThrough) →
      CommitStep c (.timeOut i) (c.leave i seq ans)
  | elected : c.poisoned = none → c.leader = none →
      CommitStep c (.wake i) { c with
        waiters := c.waiters.eraseIdx i
        leader := some ⟨seq, .elected⟩ }
  | captureFails : c.leader = some l →
      CommitStep c (.capture cloneFails) (c.leaderFails l)
  | capture : c.leader = some l → l.phase = .elected →
      c.active.poisoned = false →
      CommitStep c (.capture false)
        { c with leader := some ⟨l.seq, .captured c.active.id (c.nextSeq - 1)⟩ }
  | fsyncStart : c.leader = some l →
      l.phase = .captured segmentId batchMaxSeq →
      CommitStep c .fsyncStart { c with
        leader := some ⟨l.seq, .syncing segmentId batchMaxSeq c.active.log.items.length⟩ }
  | fsyncHere : c.leader = some l →
      l.phase = .syncing c.active.id batchMaxSeq present →
      CommitStep c (.fsyncDone true) { c with
        leader := some ⟨l.seq, .synced batchMaxSeq⟩
        active := { c.active with log := c.active.log.syncTo present } }
  /-- The segment has been sealed since the capture. -/
  | fsyncBehind : c.leader = some l →
      l.phase = .syncing segmentId batchMaxSeq present → segmentId ≠ c.active.id →
      CommitStep c (.fsyncDone true) { c with leader := some ⟨l.seq, .synced batchMaxSeq⟩ }
  | fsyncFails : c.leader = some l →
      CommitStep c (.fsyncDone false) (c.lose.leaderFails l)
  | fsyncFailsBehind : c.leader = some l →
      CommitStep c (.fsyncDone false) (c.leaderFails l)
  | publish : c.leader = some l →
      l.phase = .synced batchMaxSeq →
      CommitStep c .publish { c with
        durableThrough := max c.durableThrough batchMaxSeq
        leader := some ⟨l.seq, .published⟩ }
  | finish : c.leader = some l → l.phase = .published →
      CommitStep c .finish ({ c with leader := none }.answer l.seq .ok)
  | leaderPanic : CommitStep c .leaderPanic { c with
      leader := none
      poisoned := some (c.poisoned.getD .leaderPanicked) }
  | shutdown : CommitStep c .shutdown { c with shuttingDown := true }

variable {c c' : Committer crc maxRecordLen} {a : CommitterAct}

theorem encodeFrame_seq {seq : Nat} {op : WalOp} {f : Frame crc maxRecordLen}
    (h : GroupCommit.encodeFrame crc maxRecordLen seq op = .ok f) : f.seq = seq := by
  unfold GroupCommit.encodeFrame at h
  split at h
  · cases h
    rfl
  · cases h

/-- What the head of the loop of `append_group` knows in each case. -/
def TodoFits (g : Group crc maxRecordLen) : Committer.Todo crc maxRecordLen → Prop
  | .push _ frame => g.failed = false ∧ frame.seq = g.seq
  | .flush => g.run ≠ []
  | .rotate _ => g.run = []
  | _ => True

theorem todo_fits (c : Committer crc maxRecordLen) (g : Group crc maxRecordLen) :
    TodoFits g (c.todo g) := by
  unfold Committer.todo
  split
  · split <;> rename_i h
    · trivial
    · intro hrun
      exact h (.inr (by simp [hrun]))
  · split
    · trivial
    · rename_i hfailed
      split
      · trivial
      · rename_i frame hframe
        split
        · split <;> rename_i hrun
          · exact List.isEmpty_iff.mp hrun
          · exact fun hnil => hrun (by simp [hnil])
        · exact ⟨by simpa using hfailed, encodeFrame_seq hframe⟩

theorem step_of_groupAct {g : Group crc maxRecordLen} (hg : c.group = some g)
    (h : c.groupAct g a = some c') : CommitStep c a c' := by
  have hfits := todo_fits c g
  revert h
  -- the cases in which the combiner has a step, in the order of the definition
  fun_cases Committer.groupAct c g a <;> intro h <;> cases h
  · exact .groupDrop hg
  · exact .groupDrop hg
  · rename_i htodo _
    rw [htodo] at hfits
    exact .groupPush hg hfits.1 hfits.2
  · rename_i htodo
    rw [htodo] at hfits
    exact .groupFlush hg hfits
  · rename_i hrot
    have hstep := CommitStep.groupRotate hg (congrArg Prod.snd hrot)
    rwa [hrot] at hstep
  · rename_i slot htodo _ hrot
    rw [htodo] at hfits
    have hstep := @CommitStep.groupRotateFail _ _ c g _ slot hg hfits (congrArg Prod.snd hrot)
    rwa [hrot] at hstep
  · exact .groupEnd

theorem step_of_fsyncDone {l : Leader} {succeeds : Bool} (hl : c.leader = some l)
    (h : c.leaderAct l (.fsyncDone succeeds) = some c') :
    CommitStep c (.fsyncDone succeeds) c' := by
  simp only [Committer.leaderAct] at h
  split at h
  · rename_i segmentId batchMaxSeq present hphase
    by_cases hhere : segmentId = c.active.id
    · subst hhere
      simp only [decide_true, if_true] at h
      split at h <;> rename_i hs
      · cases h
        obtain rfl := hs
        exact .fsyncHere hl hphase
      · cases h
        obtain rfl := Bool.eq_false_iff.mpr hs
        exact .fsyncFails hl
    · simp only [hhere, decide_false, Bool.false_eq_true, if_false] at h
      split at h <;> rename_i hs
      · cases h
        obtain rfl := hs
        exact .fsyncBehind hl hphase hhere
      · cases h
        obtain rfl := Bool.eq_false_iff.mpr hs
        exact .fsyncFailsBehind hl
  · cases h

/-- Inversion of a step of the leader. -/
theorem step_of_leaderAct {l : Leader} (hl : c.leader = some l)
    (h : c.leaderAct l a = some c') : CommitStep c a c' := by
  cases a with
  | capture cloneFails =>
    simp only [Committer.leaderAct] at h
    split at h
    · rename_i hphase _
      split_ifs at h with hclone
      · cases h
        exact .captureFails hl
      · cases h
        obtain ⟨hactive, rfl⟩ : c.active.poisoned = false ∧ cloneFails = false := by
          simpa using hclone
        exact .capture hl hphase hactive
    · cases h
  | fsyncStart =>
    simp only [Committer.leaderAct] at h
    split at h
    · cases h
      exact .fsyncStart hl ‹_›
    · cases h
  | fsyncDone succeeds => exact step_of_fsyncDone hl h
  | publish =>
    simp only [Committer.leaderAct] at h
    split at h
    · cases h
      exact .publish hl ‹_›
    · cases h
  | finish =>
    simp only [Committer.leaderAct] at h
    split at h
    · cases h
      exact .finish hl ‹_›
    · cases h
  | leaderPanic =>
    cases h
    exact .leaderPanic
  | _ => cases h

theorem step_of_wake {i : Nat} (h : c.act (.wake i) = some c') : CommitStep c (.wake i) c' := by
  simp only [Committer.act] at h
  split at h
  · cases h
  · rename_i seq _
    split at h
    · cases h
      exact .woken fun _ => ‹_›
    · split at h
      · cases h
        exact .woken fun h => by cases h
      · rename_i hpoisoned
        split at h
        · cases h
          exact .woken fun h => by cases h
        · split_ifs at h with hleader
          cases h
          exact .elected hpoisoned (by simpa using hleader)

/-- Every step is one of those. -/
theorem commitStep_of_act (h : c.act a = some c') : CommitStep c a c' := by
  cases a with
  | append op =>
    simp only [Committer.act] at h
    split_ifs at h
    cases h
    exact .append
  | drain =>
    simp only [Committer.act] at h
    split at h
    · rename_i hgroup
      split at h
      · cases h
      · split at h
        · cases h
          exact .drainEmpty
        · cases h
          exact .drain hgroup
    · cases h
  | handOver =>
    simp only [Committer.act] at h
    split at h
    · split_ifs at h
      cases h
      exact .handOver
    · cases h
  | combinerPanic =>
    simp only [Committer.act] at h
    split at h
    · cases h
      exact .combinerPanic
    · cases h
  | rotate out =>
    simp only [Committer.act] at h
    split at h
    · cases h
      exact .rotate ‹_›
    · cases h
  | call seq =>
    simp only [Committer.act] at h
    split at h
    · cases h
      exact .called fun _ => ‹_›
    · split at h
      · cases h
        exact .called fun h => by cases h
      · split at h
        · cases h
          exact .called fun h => by cases h
        · cases h
          exact .waits
  | wake i => exact step_of_wake h
  | timeOut i =>
    simp only [Committer.act] at h
    split at h
    · cases h
    · split at h
      · cases h
        exact .timedOut fun _ => ‹_›
      · split at h
        · cases h
          exact .timedOut fun h => by cases h
        · cases h
          exact .timedOut fun h => by cases h
  | shutdown =>
    cases h
    exact .shutdown
  | groupNext | groupFlush | groupRotate | groupEnd =>
    simp only [Committer.act] at h
    split at h
    · exact step_of_groupAct ‹_› h
    · cases h
  | capture | fsyncStart | fsyncDone | publish | finish | leaderPanic =>
    simp only [Committer.act] at h
    split at h
    · exact step_of_leaderAct ‹_› h
    · cases h

/-- `FileWal::rotate`, by outcome. -/
inductive RotateStep (c : Committer crc maxRecordLen) :
    RotateOutcome → Committer crc maxRecordLen × Bool → Prop where
  | refused : RotateStep c out (c, false)
  | sealFails : c.active.poisoned = false → RotateStep c .sealFails (c.lose, false)
  | rotated : c.active.poisoned = false → RotateStep c .rotated ({ c with
      sealed := c.sealed ++ [{ c.active with log := c.active.log.syncAll }]
      active := { id := c.active.id + 1 } }, true)

theorem rotateStep (c : Committer crc maxRecordLen) (out : RotateOutcome) :
    RotateStep c out (c.rotate out) := by
  cases out with
  | createFails => exact .refused
  | sealFails =>
    simp only [Committer.rotate]
    split_ifs with h
    · exact .refused
    · exact .sealFails (by simpa using h)
  | rotated =>
    simp only [Committer.rotate]
    split_ifs with h
    · exact .refused
    · exact .rotated (by simpa using fun hp => h (.inl hp))

/-- `SegmentIo::append`, by outcome. -/
inductive WriteStep (c : Committer crc maxRecordLen) (frames : List (Frame crc maxRecordLen)) :
    WriteOutcome → Committer crc maxRecordLen × Bool → Prop where
  | refused : WriteStep c frames out (c, false)
  | written : WriteStep c frames .written
      ({ c with active := { c.active with log := c.active.log.append frames } }, true)
  | rolledBack : WriteStep c frames .rolledBack
      ({ c with active := { c.active with log := c.active.log.syncAll } }, false)
  | truncateFails : WriteStep c frames .truncateFails
      ({ c with active := { c.active with poisoned := true } }, false)
  | rollbackSyncFails : c.active.poisoned = false → WriteStep c frames .rollbackSyncFails
      ({ c.lose with active := { c.active with poisoned := true } }, false)

theorem writeStep (c : Committer crc maxRecordLen) (frames : List (Frame crc maxRecordLen))
    (out : WriteOutcome) : WriteStep c frames out (c.writeRun frames out) := by
  cases out with
  | truncateFails => exact .truncateFails
  | written =>
    simp only [Committer.writeRun]
    split
    · exact .refused
    · exact .written
  | rolledBack =>
    simp only [Committer.writeRun]
    split
    · exact .refused
    · exact .rolledBack
  | rollbackSyncFails =>
    simp only [Committer.writeRun]
    split_ifs with h
    · exact .refused
    · exact .rollbackSyncFails (by simpa using h)

/-- A rotation leaves everything but the files alone. -/
theorem rotate_frame (c : Committer crc maxRecordLen) (out : RotateOutcome) :
    ∃ sealed active lost,
      (c.rotate out).1 = { c with sealed := sealed, active := active, lost := lost } := by
  have hstep := rotateStep c out
  generalize c.rotate out = r at hstep
  cases hstep <;> exact ⟨_, _, _, rfl⟩

/-- So does the write of a run, but for the batch and the next number. -/
theorem flushRun_frame (c : Committer crc maxRecordLen) (g : Group crc maxRecordLen)
    (out : WriteOutcome) : ∃ active lost nextSeq group, c.flushRun g out =
      { c with active := active, lost := lost, nextSeq := nextSeq, group := group } := by
  have hstep := writeStep c (g.run.map (·.2)) out
  unfold Committer.flushRun
  generalize c.writeRun (g.run.map (·.2)) out = r at hstep
  cases hstep <;> exact ⟨_, _, _, _, rfl⟩

end RubixDb.Proof
