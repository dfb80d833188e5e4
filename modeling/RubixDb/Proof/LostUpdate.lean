import RubixDb.Proof.SessionLocks

/-!
# Updates that are lost

A transaction reads a row at its snapshot and later commits a write of it. The commit
compares the row as the snapshot sees it with the row as it is now, both at that moment.

* The snapshot number is the durable mark, so a batch at or below it may not be applied
  yet when the row is read. Once no such batch is in flight the read is settled: whatever
  others do, it comes out the same at the commit (`settledAt_run`).
* The comparison is one of values: a row that was changed and changed back passes
  (`changed_back_unnoticed`).
-/

namespace RubixDb.Proof

open Lib

variable {s : Session} {a : TaskAct} {w w' : Database} {p q snapshot : Nat}
    {wal : List (Batch StoreKey StoreValue)}

variable {cfg : Config}

/-! ## A transaction in a run -/

/-- Process `q` is in a transaction with this snapshot. -/
def InTransaction (w : Database) (q snapshot : Nat) : Prop :=
  ∃ s, (w.procs q).pc = .session s ∧ s.snapshot = snapshot

/-- A step of a run in which `q` stays in its transaction: no restart, and `q` neither
leaves it nor begins another. -/
def staysIn (q : Nat) : Act TaskAct → Bool
  | .step _ (.session _) => true
  | .step p _ => p ≠ q
  | .sync _ => true
  | .crash _ => false

theorem snapshot_of_step {seen : RelSeen} {s' : Session} {a : SessionAct} {e : RelEffect}
    {c : Caches} (hs : SessionStep cfg seen s a e c s') : s'.snapshot = s.snapshot := by
  have hwithin : ∀ call phase, (s.within call phase).snapshot = s.snapshot := by
    intro call phase
    rw [Session.within]
    split <;> rfl
  cases hs with
  | put _ | delete _ | cascade _ => exact hwithin _ _
  | rechecked _ _ =>
    rw [Session.recheckTable]
    split <;> rfl
  | _ => rfl

/-- What a process is doing after a step of its own. -/
theorem pc_of_moved (hm : w.Moved (database cfg) p a w') :
    ∃ e c, TaskStep cfg w.seen (w.procs p).pc a e c (w'.procs p).pc := by
  cases hm with
  | quiet h | acquire h _ | release h | submit h | apply h _ _ =>
    exact ⟨_, _, by simpa using taskStep_of_step h⟩

theorem inTransaction_moved (h : InTransaction w q snapshot) (hm : w.Moved (database cfg) p a w')
    (hstays : staysIn q (.step p a) = true) : InTransaction w' q snapshot := by
  obtain ⟨s, hpc, hsnap⟩ := h
  by_cases hqp : q = p
  · subst hqp
    obtain ⟨e, c, hstep⟩ := pc_of_moved hm
    rw [hpc] at hstep
    generalize hpc' : (w'.procs q).pc = pc' at hstep
    cases hstep with
    | session hs => exact ⟨_, hpc', (snapshot_of_step hs).trans hsnap⟩
    | leave _ => simp [staysIn] at hstays
  · exact ⟨s, by rw [hm.procs_of_ne hqp]; exact hpc, hsnap⟩

/-! ## Snapshots are below what is to come -/

/-- Every snapshot is below the next number. -/
def SnapshotsBelow (w : Database) : Prop :=
  ∀ p snapshot, InTransaction w p snapshot → snapshot < w.next

theorem next_le_of_moved (hm : w.Moved (database cfg) p a w') : w.next ≤ w'.next := by
  cases hm with
  | submit _ => exact Nat.le_succ _
  | _ => exact Nat.le_refl _

/-- A snapshot is taken below the next number and stays there. -/
theorem snapshotsBelow_act {a : Act TaskAct} (hok : w.Ok (databaseDiscipline cfg))
    (h : SnapshotsBelow w) (hact : w.act (database cfg) a = some w') : SnapshotsBelow w' := by
  intro q snapshot hin
  cases a with
  | step p a =>
    have hm := System.moved_of_act hact
    have hnext := next_le_of_moved hm
    by_cases hqp : q = p
    · subst hqp
      obtain ⟨s, hpc, hsnap⟩ := hin
      obtain ⟨e, c, hstep⟩ := pc_of_moved hm
      rw [hpc] at hstep
      rcases taskStep_to_session hstep with ⟨-, rfl⟩ | ⟨s₀, sa, hbefore, -, hs⟩
      · -- the snapshot is the durable mark
        have := hok.durable
        rw [← hsnap]
        show w.durable < w'.next
        omega
      · have := h q snapshot ⟨s₀, hbefore, (snapshot_of_step hs).symm.trans hsnap⟩
        omega
    · obtain ⟨s, hpc, hsnap⟩ := hin
      rw [hm.procs_of_ne hqp] at hpc
      have := h q snapshot ⟨s, hpc, hsnap⟩
      omega
  | sync n =>
    simp only [System.act] at hact
    split at hact <;> cases hact
    exact h q snapshot hin
  | crash cut =>
    simp only [System.act] at hact
    split at hact <;> cases hact
    obtain ⟨s, hpc, -⟩ := hin
    cases hpc

/-- What every state of a database has. -/
structure DatabaseOk (cfg : Config) (w : Database) : Prop where
  ok : w.Ok (databaseDiscipline cfg)
  below : SnapshotsBelow w

theorem databaseOk_boot (hord : wal.Pairwise (·.seq < ·.seq)) :
    DatabaseOk cfg (System.boot (database cfg) wal) where
  ok := System.ok_boot hord
  below p snapshot h := by
    obtain ⟨s, hpc, -⟩ := h
    cases hpc

theorem databaseOk_act {a : Act TaskAct} (h : DatabaseOk cfg w)
    (hact : w.act (database cfg) a = some w') : DatabaseOk cfg w' where
  ok := System.ok_act h.ok hact
  below := snapshotsBelow_act h.ok h.below hact

theorem databaseOk_of_reach {C : Database → Act TaskAct → Prop}
    (hord : wal.Pairwise (·.seq < ·.seq))
    (h : Reach (System.act (database cfg)) C (System.boot (database cfg) wal) w) :
    DatabaseOk cfg w :=
  h.invariant (databaseOk_boot hord) fun hok _ hact => databaseOk_act hok hact

/-! ## Settled reads -/

/-- What a transaction has read of a key, and that it reads it again. -/
structure HasRead (w : Database) (q snapshot : Nat) (k : StoreKey) (v : Option StoreValue) :
    Prop where
  inside : InTransaction w q snapshot
  settled : w.Settled k snapshot
  value : readAt w.store k snapshot = v

theorem hasRead_act {k : StoreKey} {v : Option StoreValue} {a : Act TaskAct}
    (hok : w.Ok (databaseDiscipline cfg)) (h : HasRead w q snapshot k v)
    (hstays : staysIn q a = true) (hact : w.act (database cfg) a = some w') :
    HasRead w' q snapshot k v := by
  cases a with
  | step p a =>
    have hm := System.moved_of_act hact
    obtain ⟨hsettled, hvalue⟩ := h.settled.moved hok hm
    exact ⟨inTransaction_moved h.inside hm hstays, hsettled, hvalue.trans h.value⟩
  | sync n =>
    simp only [System.act] at hact
    split at hact <;> cases hact
    exact ⟨h.inside, h.settled, h.value⟩
  | crash cut => cases hstays

/-- **A settled read stays what it was**, as long as its transaction lasts. -/
theorem hasRead_run {k : StoreKey} {v : Option StoreValue} (hok : DatabaseOk cfg w)
    (h : HasRead w q snapshot k v)
    (hrun : Reach (System.act (database cfg)) (fun _ a => staysIn q a = true) w w') :
    DatabaseOk cfg w' ∧ HasRead w' q snapshot k v :=
  Reach.invariant (P := fun w => DatabaseOk cfg w ∧ HasRead w q snapshot k v) hrun ⟨hok, h⟩
    fun hboth hstays hact =>
      ⟨databaseOk_act hboth.1 hact, hasRead_act hboth.1.ok hboth.2 hstays hact⟩

/-! ## The commit -/

/-- A step of a session that puts a batch in flight is a validation that went through. -/
theorem validated_of_submit {b : Batch StoreKey StoreValue} (hok : w.Ok (databaseDiscipline cfg))
    (hpc : (w.procs q).pc = .session s)
    (hact : w.act (database cfg) (.step q (.session .validate)) = some w')
    (hb : (w'.procs q).batch = some b) :
    ∃ list, validateAndBuildOps cfg.limits w.store s.snapshot list s.tx = .ok b.ops := by
  have hm := System.moved_of_act hact
  have hsession : ∀ {e c pc'}, (database cfg).step w.seen (w.procs q).pc (.session .validate) =
      some (e, c, pc') → ∃ s', SessionStep cfg w.seen s .validate e c s' := by
    intro e c pc' h
    have hstep := taskStep_of_step h
    rw [hpc] at hstep
    cases hstep with
    | session hs => exact ⟨_, hs⟩
  cases hm with
  | submit h =>
    obtain ⟨s', hs⟩ := hsession h
    simp only [Function.update_self, Option.some.injEq] at hb
    rw [← hb]
    cases hs with
    | validated _ hops => exact ⟨_, hops⟩
  | quiet h | acquire h _ | apply h _ _ =>
    obtain ⟨s', hs⟩ := hsession h
    cases hs
  | release h =>
    -- nothing was in flight before, and nothing is now
    have hnone := hok.batch_eq_none ((databaseDiscipline cfg).flight_before h)
    simp only [Function.update_self, hnone] at hb
    cases hb

/-- **A commit overwrites the value its transaction has read.** A transaction reads a row
when no batch at or below its snapshot that writes the row is in flight, and later commits
a write of the row: then the row is, by value, what it read. So a write that others made
to the row in between is detected, unless the row is back at that value. -/
theorem commit_overwrites_value_read {wal : List (Batch StoreKey StoreValue)} {w w' w'' : Database}
    {q t : Nat} {pk : Bytes} {s s' : Session} {b : Batch StoreKey StoreValue}
    (hord : wal.Pairwise (·.seq < ·.seq))
    (hrun : Reach (System.act (database cfg)) (fun _ _ => True) (System.boot (database cfg) wal) w)
    (hread : (w.procs q).pc = .session s)
    (hwindow : ∀ p c, (w.procs p).batch = some c → c.seq ≤ s.snapshot → ¬ Writes c.ops (.row t pk))
    (hstays : Reach (System.act (database cfg)) (fun _ a => staysIn q a = true) w w')
    (hcommit : (w'.procs q).pc = .session s')
    (hact : w'.act (database cfg) (.step q (.session .validate)) = some w'')
    (hb : (w''.procs q).batch = some b) (hwrites : Writes b.ops (.row t pk)) :
    readNow w'.store (.row t pk) = readAt w.store (.row t pk) s.snapshot := by
  have hok := databaseOk_of_reach hord hrun
  have hinside : InTransaction w q s.snapshot := ⟨s, hread, rfl⟩
  have hhas : HasRead w q s.snapshot (.row t pk) (readAt w.store (.row t pk) s.snapshot) :=
    ⟨hinside, ⟨hok.below q _ hinside, hwindow⟩, rfl⟩
  obtain ⟨hok', hhas'⟩ := hasRead_run hok hhas hstays
  obtain ⟨list, hops⟩ := validated_of_submit hok'.ok hcommit hact hb
  -- the snapshot is still the one the row was read at
  obtain ⟨s₁, hpc, hsnap⟩ := hhas'.inside
  obtain rfl : s' = s₁ := Task.session.inj (hcommit.symm.trans hpc)
  rw [← fresh_of_commit hops hwrites, hsnap]
  exact hhas'.value

/-! ## Runs on one counter -/

/-- The snapshot of the transaction a process is in. -/
def snapshotOf (w : Database) (p : Nat) : Option Nat :=
  match (w.procs p).pc with
  | .session s => some s.snapshot
  | _ => none

theorem session_of_snapshotOf (h : snapshotOf w p = some snapshot) :
    ∃ s, (w.procs p).pc = .session s ∧ s.snapshot = snapshot := by
  rw [snapshotOf] at h
  split at h
  · exact ⟨_, ‹_›, Option.some.inj h⟩
  · cases h

/-- The transaction of a process has ended. -/
def hasFinished (w : Database) (p : Nat) : Bool :=
  match (w.procs p).pc with
  | .session s => match s.phase with
      | .finished => true
      | _ => false
  | _ => false

def openConfig : Config := ⟨⟨10, 1000⟩, fun _ _ => some (some true)⟩

/-- A table with a key and a number. -/
def counterShape : TableShape where
  table := ⟨1, [0], 1, .active⟩
  columns :=
    [⟨1, 0, "id", 2, false, none, 1, none, none⟩, ⟨1, 1, "n", 2, false, none, 1, none, none⟩]

def counterRow (n : BitVec 32) : Row := [some (.integer 1), some (.integer n)]

def counterKey : StoreKey := .row 1 [128, 0, 0, 1]

def counterLog : List (Batch StoreKey StoreValue) :=
  [⟨1, [(.table 1, some (.table counterShape)), (counterKey, some (.row 1 (counterRow 0)))]⟩]

def sessionActs (p : Nat) (as : List SessionAct) : List (Act TaskAct) :=
  as.map fun a => .step p (.session a)

/-- Process `p` puts the counter at `n` and goes on to the point where it validates; `reads`
is how many steps the list of foreign keys takes. -/
def putCounter (p : Nat) (n : BitVec 32) (reads : Nat) : List (Act TaskAct) :=
  sessionActs p ([.putRow 1 (counterRow n), .commit, .plan] ++ List.replicate reads .read ++
    [.lock, .recheck, .read])

/-- The rest of the commit. -/
def finishCommit (p seq : Nat) : List (Act TaskAct) :=
  sessionActs p [.validate] ++ [.sync seq] ++ sessionActs p [.apply, .release]

/-- A step of the first two processes, or of the log. -/
def ofFirstTwo : Act TaskAct → Bool
  | .step p _ => p < 2
  | .sync _ => true
  | .crash _ => false

theorem batch_eq_none_of_ofFirstTwo
    (h : Reach (System.act (database cfg)) (fun _ a => ofFirstTwo a = true)
      (System.boot (database cfg) wal) w) (hp : 2 ≤ p) : (w.procs p).batch = none := by
  refine Reach.invariant (P := fun w => (w.procs p).batch = none) h rfl
    fun {t u a} hnone hc hact => ?_
  cases a with
  | step p' a =>
    have hlt : p' < 2 := by simpa [ofFirstTwo] using hc
    rw [(System.moved_of_act hact).procs_of_ne (by omega)]
    exact hnone
  | sync n =>
    simp only [System.act] at hact
    split at hact <;> cases hact
    exact hnone
  | crash cut => cases hc

/-- A transaction reads the counter at `0` while another's `5` is in flight, which commits;
a third puts the counter back to `0`, and only then can the first commit its `7`. -/
theorem commit_overwrites_value_read_changed_back :
    ∃ w w' : Database,
      Reach (System.act (database openConfig)) (fun _ _ => True)
        (System.boot (database openConfig) counterLog) w ∧
      snapshotOf w 1 = some 1 ∧ (w.procs 0).batch.map (·.seq) = some 2 ∧
      readAt w.store counterKey 1 = some (.row 1 (counterRow 0)) ∧
      Reach (System.act (database openConfig)) (fun _ a => staysIn 1 a = true) w w' ∧
      w'.wal.map (fun b => lastOp b.ops counterKey) = [some (some (.row 1 (counterRow 0))),
        some (some (.row 1 (counterRow 5))), some (some (.row 1 (counterRow 0)))] ∧
      readNow w'.store counterKey = some (.row 1 (counterRow 0)) := by
  obtain ⟨w, hw, ⟨hsnap, hzero, hone, hread⟩, hw'⟩ : ∃ w : Database,
      Reach (System.act (database openConfig)) (fun _ a => ofFirstTwo a = true)
        (System.boot (database openConfig) counterLog) w ∧
      (snapshotOf w 1 = some 1 ∧ (w.procs 0).batch.map (·.seq) = some 2 ∧
        (w.procs 1).batch.map (·.seq) = none ∧
        readAt w.store counterKey 1 = some (.row 1 (counterRow 0))) ∧
      (run (System.act (database openConfig)) (fun _ a => staysIn 1 a = true) w
        ([.sync 2] ++ sessionActs 0 [.apply, .release] ++ [.step 2 .begin] ++ putCounter 2 0 1 ++
          finishCommit 2 3 ++ putCounter 1 7 1)).any (fun w' =>
        decide (snapshotOf w' 1 = some 1 ∧ w'.wal.map (fun b => lastOp b.ops counterKey) =
            [some (some (.row 1 (counterRow 0))), some (some (.row 1 (counterRow 5))),
              some (some (.row 1 (counterRow 0)))] ∧
          (w'.act (database openConfig) (.step 1 (.session .validate))).any (fun w'' =>
            (w''.procs 1).batch.any fun b =>
              b.ops.any fun op => op.1 = counterKey) = true)) = true :=
    exists_reach_of_run ([.step 0 .begin, .step 1 .begin] ++ putCounter 0 5 4 ++
      sessionActs 0 [.validate]) (by decide +kernel)
  obtain ⟨w', hstays, hfinal⟩ := (Option.any_eq_true _ _).mp hw'
  obtain ⟨hsnap', hwal, hany⟩ := of_decide_eq_true hfinal
  obtain ⟨w'', hact, hany⟩ := (Option.any_eq_true _ _).mp hany
  obtain ⟨b, hb, hany⟩ := (Option.any_eq_true _ _).mp hany
  obtain ⟨⟨k, v⟩, hv, hk⟩ := List.any_eq_true.mp hany
  obtain rfl : k = counterKey := by simpa using hk
  obtain ⟨s, hs, hsnapshot⟩ := session_of_snapshotOf hsnap
  obtain ⟨s', hs', -⟩ := session_of_snapshotOf hsnap'
  have hreach : Reach (System.act (database openConfig)) (fun _ _ => True) _ w :=
    Reach.invariant (P := Reach _ _ _) hw .refl fun h _ hact => h.tail trivial hact
  refine ⟨w, w', hreach, hsnap, hzero, hread, reach_of_run hstays, hwal, ?_⟩
  rw [← hread, ← hsnapshot]
  refine commit_overwrites_value_read (by simp [counterLog]) hreach hs ?_ (reach_of_run hstays) hs'
    hact hb ⟨v, hv⟩
  -- what is in flight is numbered behind the snapshot
  intro p c hc hle
  rcases Nat.lt_or_ge p 2 with hp | hp
  · interval_cases p
    · rw [hc, Option.map_some, Option.some.injEq] at hzero
      omega
    · rw [hc] at hone
      cases hone
  · rw [batch_eq_none_of_ofFirstTwo hw hp] at hc
    cases hc

/-- Two transactions read the counter at `0`. The first puts it at `5` and commits, a third
puts it back to `0`, and the second puts it at `7` and commits: it has not seen the `5`,
and nothing is detected. -/
theorem changed_back_unnoticed :
    ∃ w w' : Database,
      Reach (System.act (database openConfig)) (fun _ _ => True)
        (System.boot (database openConfig) counterLog) w ∧
      (snapshotOf w 0 = some 1 ∧ snapshotOf w 1 = some 1 ∧
        readAt w.store counterKey 1 = some (.row 1 (counterRow 0))) ∧
      Reach (System.act (database openConfig))
        (fun _ a => staysIn 0 a = true ∧ staysIn 1 a = true) w w' ∧
      (hasFinished w' 0 = true ∧ hasFinished w' 1 = true ∧
        w'.wal.map (fun b => lastOp b.ops counterKey) =
          [some (some (.row 1 (counterRow 0))), some (some (.row 1 (counterRow 5))),
            some (some (.row 1 (counterRow 0))), some (some (.row 1 (counterRow 7)))]) := by
  obtain ⟨w, hw, hread, hw'⟩ : ∃ w : Database,
      Reach (System.act (database openConfig)) (fun _ _ => True)
        (System.boot (database openConfig) counterLog) w ∧
      (snapshotOf w 0 = some 1 ∧ snapshotOf w 1 = some 1 ∧
        readAt w.store counterKey 1 = some (.row 1 (counterRow 0))) ∧
      (run (System.act (database openConfig)) (fun _ a => staysIn 0 a = true ∧ staysIn 1 a = true) w
        (putCounter 0 5 4 ++ finishCommit 0 2 ++ [.step 2 .begin] ++ putCounter 2 0 1 ++
          finishCommit 2 3 ++ putCounter 1 7 1 ++ finishCommit 1 4)).any (fun w' =>
        hasFinished w' 0 && hasFinished w' 1 &&
          decide (w'.wal.map (fun b => lastOp b.ops counterKey) =
            [some (some (.row 1 (counterRow 0))), some (some (.row 1 (counterRow 5))),
              some (some (.row 1 (counterRow 0))), some (some (.row 1 (counterRow 7)))])) = true :=
    exists_reach_of_run [.step 0 .begin, .step 1 .begin] (by decide +kernel)
  obtain ⟨w', hrun, hfinal⟩ := (Option.any_eq_true _ _).mp hw'
  rw [Bool.and_eq_true, Bool.and_eq_true, decide_eq_true_eq] at hfinal
  exact ⟨w, w', hw, hread, reach_of_run hrun, hfinal.1.1, hfinal.1.2, hfinal.2⟩

end RubixDb.Proof
