import RubixDb.Proof.IndexEntries
import RubixDb.Sql.Processes

/-!
# Runs of a database

What one step of a session can do, and the locks of every process: a session holds the
epoch locks of its commit, a catalog change those of its tables and then `ddl_lock`, a build
the epoch lock of its table for a chunk. A row is guarded by the epoch lock of its table
and a row of the catalog by `ddl_lock`; the entries of an index are not guarded, as a sweep
deletes them without a lock.
-/

namespace RubixDb.Proof

open Lib

/-! ## Sessions -/

/-- The steps of a session, one for each place in the source where another thread can come
between. -/
inductive SessionStep (cfg : Config) (seen : RelSeen) (s : Session) :
    SessionAct → RelEffect → Caches → Session → Prop where
  | execute (h : s.phase = .active) :
      SessionStep cfg seen s (.execute t rows) .quiet seen.shared
        { s with tx := s.tx.savepoint.2, savepoint := some s.tx.savepoint.1
                 phase := .checking t rows .start }
  | putRow (h : s.phase = .active) :
      SessionStep cfg seen s (.putRow t row) .quiet seen.shared
        { s with
          tx := (runCall (RubixDb.putRow (dbOf cfg.limits seen.store s.snapshot []) t row)
            s.tx).2 }
  | deleteRow (h : s.phase = .active) :
      SessionStep cfg seen s (.deleteRow t pk) .quiet seen.shared
        { s with
          tx := (runCall (RubixDb.deleteRow (dbOf cfg.limits seen.store s.snapshot []) t pk)
            s.tx).2 }
  | checkMore (h : s.phase = .checking t rows reading)
      (hread : reading.next seen.shared.checks (checkConstraintsAt seen.store (topSeq seen.store)) =
        (checks, .inl reading')) :
      SessionStep cfg seen s .read .quiet { seen.shared with checks := checks }
        { s with phase := .checking t rows reading' }
  | checked (h : s.phase = .checking t rows reading)
      (hread : reading.next seen.shared.checks (checkConstraintsAt seen.store (topSeq seen.store)) =
        (checks, .inr list)) (hpass : rowsSatisfy cfg.eval (checksFor list t) rows = true) :
      SessionStep cfg seen s .read .quiet { seen.shared with checks := checks }
        { s with phase := .writing t (checksFor list t) rows [] }
  | refused (h : s.phase = .checking t rows reading)
      (hread : reading.next seen.shared.checks (checkConstraintsAt seen.store (topSeq seen.store)) =
        (checks, .inr list)) :
      SessionStep cfg seen s .read .quiet { seen.shared with checks := checks } (s.rollback s.tx)
  | put (h : s.phase = .writing t checks (row :: todo) cascaded) :
      SessionStep cfg seen s .put .quiet seen.shared
        (s.within (RubixDb.putRow (dbOf cfg.limits seen.store s.snapshot []) t row)
          (.writing t checks todo cascaded))
  | delete (h : s.phase = .writing t checks todo cascaded) :
      SessionStep cfg seen s (.delete t' pk) .quiet seen.shared
        (s.within (RubixDb.deleteRow (dbOf cfg.limits seen.store s.snapshot []) t' pk)
          (.writing t checks todo cascaded))
  | cascade (h : s.phase = .writing t checks todo cascaded) :
      SessionStep cfg seen s (.cascade t' row) .quiet seen.shared
        (s.within (RubixDb.putRow (dbOf cfg.limits seen.store s.snapshot []) t' row)
          (.writing t checks todo (cascaded ++ [(t', row)])))
  | endWrites (h : s.phase = .writing t checks [] cascaded) :
      SessionStep cfg seen s .endWrites .quiet seen.shared
        { s with phase := .rechecking (Session.cascadedTables cascaded) cascaded .start }
  | recheckMore (h : s.phase = .rechecking (t :: tables) cascaded reading)
      (hread : reading.next seen.shared.checks (checkConstraintsAt seen.store (topSeq seen.store)) =
        (checks, .inl reading')) :
      SessionStep cfg seen s .read .quiet { seen.shared with checks := checks }
        { s with phase := .rechecking (t :: tables) cascaded reading' }
  | rechecked (h : s.phase = .rechecking (t :: tables) cascaded reading)
      (hread : reading.next seen.shared.checks (checkConstraintsAt seen.store (topSeq seen.store)) =
        (checks, .inr list)) :
      SessionStep cfg seen s .read .quiet { seen.shared with checks := checks }
        (Session.recheckTable cfg s t tables cascaded list)
  | endStatement (h : s.phase = .rechecking [] cascaded reading) :
      SessionStep cfg seen s .endWrites .quiet seen.shared s.endStatement
  | failChecking (h : s.phase = .checking t rows reading) :
      SessionStep cfg seen s .fail .quiet seen.shared (s.rollback s.tx)
  | failWriting (h : s.phase = .writing t checks todo cascaded) :
      SessionStep cfg seen s .fail .quiet seen.shared (s.rollback s.tx)
  | failRechecking (h : s.phase = .rechecking tables cascaded reading) :
      SessionStep cfg seen s .fail .quiet seen.shared (s.rollback s.tx)
  | commit (h : s.phase = .active) :
      SessionStep cfg seen s .commit .quiet seen.shared
        { s with phase := if s.tx.writes.keys.isEmpty then .finished else .retrying 0 }
  | plan (h : s.phase = .retrying attempts) :
      SessionStep cfg seen s .plan .quiet seen.shared
        { s with phase := .planning attempts seen.shared.foreignKeys.generation .start }
  | planMore (h : s.phase = .planning attempts generation reading)
      (hread : reading.next seen.shared.foreignKeys (foreignKeysAt seen.store (topSeq seen.store)) =
        (fks, .inl reading')) :
      SessionStep cfg seen s .read .quiet { seen.shared with foreignKeys := fks }
        { s with phase := .planning attempts generation reading' }
  | planned (h : s.phase = .planning attempts generation reading)
      (hread : reading.next seen.shared.foreignKeys (foreignKeysAt seen.store (topSeq seen.store)) =
        (fks, .inr list)) :
      SessionStep cfg seen s .read .quiet { seen.shared with foreignKeys := fks }
        { s with phase := .locking attempts generation list [] (commitLockPlan s.tx list) }
  | lock (h : s.phase = .locking attempts generation planned held ((t, exclusive) :: todo)) :
      SessionStep cfg seen s .lock (.acquire (.epoch t) exclusive) seen.shared
        { s with phase := .locking attempts generation planned ((t, exclusive) :: held) todo }
  | locked (h : s.phase = .locking attempts generation planned held [])
      (hgen : seen.shared.foreignKeys.generation = generation) :
      SessionStep cfg seen s .recheck .quiet seen.shared
        { s with phase := .validating planned held .start }
  | retry (h : s.phase = .locking attempts generation planned held []) :
      SessionStep cfg seen s .recheck .release seen.shared
        { s with phase := if Session.maxAttempts ≤ attempts + 1 then .finished
                          else .retrying (attempts + 1) }
  | listMore (h : s.phase = .validating planned held reading)
      (hread : reading.next seen.shared.foreignKeys (foreignKeysAt seen.store (topSeq seen.store)) =
        (fks, .inl reading')) :
      SessionStep cfg seen s .read .quiet { seen.shared with foreignKeys := fks }
        { s with phase := .validating planned held reading' }
  | listed (h : s.phase = .validating planned held reading)
      (hread : reading.next seen.shared.foreignKeys (foreignKeysAt seen.store (topSeq seen.store)) =
        (fks, .inr list)) :
      SessionStep cfg seen s .read .quiet { seen.shared with foreignKeys := fks }
        { s with phase := .listed planned list held }
  | validated (h : s.phase = .listed planned list held)
      (hops : validateAndBuildOps cfg.limits seen.store s.snapshot list s.tx = .ok ops) :
      SessionStep cfg seen s .validate (.submit ops) seen.shared { s with phase := .logged held }
  | invalid (h : s.phase = .listed planned list held) :
      SessionStep cfg seen s .validate .release seen.shared { s with phase := .finished }
  | apply (h : s.phase = .logged held) :
      SessionStep cfg seen s .apply .apply seen.shared { s with phase := .applied held }
  | release (h : s.phase = .applied held) :
      SessionStep cfg seen s .release .release seen.shared { s with phase := .finished }
  | failPlanning (h : s.phase = .planning attempts generation reading) :
      SessionStep cfg seen s .fail .quiet seen.shared { s with phase := .finished }
  | failValidating (h : s.phase = .validating planned held reading) :
      SessionStep cfg seen s .fail .release seen.shared { s with phase := .finished }
  | failListed (h : s.phase = .listed planned list held) :
      SessionStep cfg seen s .fail .release seen.shared { s with phase := .finished }

section

variable {cfg : Config} {seen : RelSeen} {s s' : Session} {a : SessionAct} {e : RelEffect}
  {c : Caches}

theorem sessionStep_of_commit (h : Session.stepCommit cfg seen s a = some (e, c, s')) :
    SessionStep cfg seen s a e c s' := by
  revert h
  -- here and below the cases are those of the definition, in its order
  fun_cases Session.stepCommit cfg seen s a <;> intro h <;> cases h <;> subst_vars
  · exact .commit ‹_›
  · exact .plan ‹_›
  · exact .planMore ‹_› ‹_›
  · exact .planned ‹_› ‹_›
  · exact .lock ‹_›
  · exact .locked ‹_› rfl
  · exact .retry ‹_›
  · exact .listMore ‹_› ‹_›
  · exact .listed ‹_› ‹_›
  · exact .validated ‹_› ‹_›
  · exact .invalid ‹_›
  · exact .apply ‹_›
  · exact .release ‹_›
  · exact .failPlanning ‹_›
  · exact .failValidating ‹_›
  · exact .failListed ‹_›

theorem sessionStep_of_statement (h : Session.stepStatement cfg seen s a = some (c, s')) :
    SessionStep cfg seen s a .quiet c s' := by
  revert h
  fun_cases Session.stepStatement cfg seen s a <;> intro h <;> cases h <;> subst_vars
  · rename_i tableId rows hphase _ _ hsave _
    have hstep := @SessionStep.execute cfg seen s tableId rows hphase
    rwa [hsave] at hstep
  · exact .putRow ‹_›
  · exact .deleteRow ‹_›
  · exact .checkMore ‹_› ‹_›
  · split
    · exact .checked ‹_› ‹_› ‹_›
    · exact .refused ‹_› ‹_›
  · exact .put ‹_›
  · exact .delete ‹_›
  · exact .cascade ‹_›
  · exact .endWrites ‹_›
  · exact .recheckMore ‹_› ‹_›
  · exact .rechecked ‹_› ‹_›
  · exact .endStatement ‹_›
  · exact .failChecking ‹_›
  · exact .failWriting ‹_›
  · exact .failRechecking ‹_›

/-- **What a step of a session can be.** -/
theorem sessionStep_of_step (h : s.step cfg seen a = some (e, c, s')) :
    SessionStep cfg seen s a e c s' := by
  rw [Session.step] at h
  split at h
  · rename_i r hr
    rw [Option.some.inj h] at hr
    exact sessionStep_of_commit hr
  · obtain ⟨r, hr, heq⟩ := Option.map_eq_some_iff.mp h
    cases heq
    exact sessionStep_of_statement hr

end

/-! ## Catalog changes, builds and sweeps -/

/-- The steps of a catalog change; it ends by giving its locks back. -/
inductive DdlStep (eval : CheckEval) (seen : RelSeen) (d : Ddl) :
    RelEffect → Caches → Option Ddl → Prop where
  | lock (h : d.phase = .locking held (t :: todo)) :
      DdlStep eval seen d (.acquire (.epoch t) true) seen.shared
        (some { d with phase := .locking (t :: held) todo })
  | accepted (h : d.phase = .locking held [])
      (haccepts : d.job.accepts eval seen.store = true) :
      DdlStep eval seen d .quiet seen.shared (some { d with phase := .checked })
  | own (h : d.phase = .checked) :
      DdlStep eval seen d (.acquire .ddl true) seen.shared (some { d with phase := .owning })
  | submit (h : d.phase = .owning) (hops : d.job.ops seen.store seen.shared = some ops) :
      DdlStep eval seen d (.submit ops) seen.shared (some { d with phase := .logged })
  | apply (h : d.phase = .logged) :
      DdlStep eval seen d .apply seen.shared
        (some { d with phase := .invalidating d.job.invalidations })
  | invalidate (h : d.phase = .invalidating (i :: todo)) :
      DdlStep eval seen d .quiet (i.run seen.shared) (some { d with phase := .invalidating todo })
  | finish (h : d.phase ≠ .logged) : DdlStep eval seen d .release seen.shared none

/-- The steps of a build. -/
inductive BackfillStep (seen : RelSeen) (b : Backfill) :
    RelEffect → Caches → Option Backfill → Prop where
  | snap (h : b.phase = .started) :
      BackfillStep seen b .quiet seen.shared (some { b with phase := .snapped seen.durable })
  | scan (h : b.phase = .snapped snapshot) :
      BackfillStep seen b .quiet seen.shared
        (some { b with phase := .filling (rowsAt seen.store snapshot b.index.tableId).keys })
  | scanned (h : b.phase = .filling []) :
      BackfillStep seen b .quiet seen.shared
        (some { b with phase := if b.index.kind = .unique then .verifying else .filled })
  | lock (h : b.phase = .filling (pk :: pks)) :
      BackfillStep seen b (.acquire (.epoch b.index.tableId) true) seen.shared
        (some { b with phase := .locked ((pk :: pks).take backfillChunkRows)
                                  ((pk :: pks).drop backfillChunkRows) })
  | skip (h : b.phase = .locked chunk todo)
      (hops : chunkOps seen.store b.index chunk = .ok []) :
      BackfillStep seen b .release seen.shared (some { b with phase := .filling todo })
  | submit (h : b.phase = .locked chunk todo)
      (hops : chunkOps seen.store b.index chunk = .ok ops) :
      BackfillStep seen b (.submit ops) seen.shared (some { b with phase := .logged todo })
  | apply (h : b.phase = .logged todo) :
      BackfillStep seen b .apply seen.shared (some { b with phase := .applied todo })
  | release (h : b.phase = .applied todo) :
      BackfillStep seen b .release seen.shared (some { b with phase := .filling todo })
  | verify (h : b.phase = .verifying) :
      BackfillStep seen b .quiet seen.shared (some { b with phase := .verifyingAt seen.durable })
  | verified (h : b.phase = .verifyingAt snapshot)
      (hverify : verifyUniqueEntries seen.store snapshot b.index = true) :
      BackfillStep seen b .quiet seen.shared (some { b with phase := .filled })
  | duplicate (h : b.phase = .verifyingAt snapshot) :
      BackfillStep seen b .quiet seen.shared none
  | own (h : b.phase = .filled) :
      BackfillStep seen b (.acquire .ddl true) seen.shared (some { b with phase := .owning })
  | promote (h : b.phase = .owning)
      (hops : DdlJob.transitionIndexState seen.store b.index.indexId [.building] .ready =
        some ops) :
      BackfillStep seen b (.submit ops) seen.shared (some { b with phase := .readyLogged })
  | promoted (h : b.phase = .readyLogged) :
      BackfillStep seen b .apply seen.shared (some { b with phase := .readyApplied })
  | finish (h : ∀ todo, b.phase ≠ .logged todo) (h' : b.phase ≠ .readyLogged) :
      BackfillStep seen b .release seen.shared none

/-- The steps of a sweep. -/
inductive SweepStep (seen : RelSeen) (s : Sweep) : RelEffect → Caches → Option Sweep → Prop where
  | swept (h : s.phase = .sweeping cursor) :
      SweepStep seen s .quiet seen.shared (some { s with phase := .swept })
  | submit (h : s.phase = .sweeping cursor)
      (hchunk : Sweep.chunk seen.store s.index cursor = body :: bodies) :
      SweepStep seen s
        (.submit ((body :: bodies).map fun b => (.entry s.index.tableId s.index.indexId b, none)))
        seen.shared (some { s with phase := .logged (body :: bodies).getLast? })
  | apply (h : s.phase = .logged cursor) :
      SweepStep seen s .apply seen.shared (some { s with phase := .sweeping cursor })
  | own (h : s.phase = .swept) :
      SweepStep seen s (.acquire .ddl true) seen.shared (some { s with phase := .owning })
  | remove (h : s.phase = .owning)
      (hops : Sweep.removeOps seen.store s.index.indexId = some ops) :
      SweepStep seen s (.submit ops) seen.shared (some { s with phase := .removeLogged })
  | removed (h : s.phase = .removeLogged) :
      SweepStep seen s .apply seen.shared (some { s with phase := .removeApplied })
  | finish (h : ∀ cursor, s.phase ≠ .logged cursor) (h' : s.phase ≠ .removeLogged) :
      SweepStep seen s .release seen.shared none

section

variable {eval : CheckEval} {seen : RelSeen} {e : RelEffect} {c : Caches} {d : Ddl}
    {d' : Option Ddl} {b : Backfill} {b' : Option Backfill} {s : Sweep} {s' : Option Sweep}

theorem ddlStep_of_next (h : d.next eval seen = some (e, c, d')) : DdlStep eval seen d e c d' := by
  revert h
  fun_cases Ddl.next eval seen d <;> intro h <;> cases h
  · exact .lock ‹_›
  · exact .accepted ‹_› ‹_›
  · exact .finish (by simp_all)
  · exact .own ‹_›
  · exact .submit ‹_› ‹_›
  · exact .finish (by simp_all)
  · exact .apply ‹_›
  · exact .invalidate ‹_›
  · exact .finish (by simp_all)

theorem ddlStep_of_abort (h : d.abort seen = some (e, c, d')) : DdlStep eval seen d e c d' := by
  simp only [Ddl.abort] at h
  split at h
  · cases h
  · rename_i hphase
    split at h <;> cases h
    exact .finish (by rw [hphase]; exact DdlPhase.noConfusion)
  · rename_i hphase _
    cases h
    exact .finish hphase

theorem backfillStep_of_next (h : b.next seen = some (e, c, b')) : BackfillStep seen b e c b' := by
  revert h
  fun_cases Backfill.next seen b <;> intro h <;> cases h
  · exact .snap ‹_›
  · exact .scan ‹_›
  · exact .scanned ‹_›
  · exact .lock ‹_›
  · exact .finish (by simp_all) (by simp_all)
  · exact .skip ‹_› ‹_›
  · exact .submit ‹_› ‹_›
  · exact .apply ‹_›
  · exact .release ‹_›
  · exact .verify ‹_›
  · split
    · exact .verified ‹_› ‹_›
    · exact .duplicate ‹_›
  · exact .own ‹_›
  · exact .promote ‹_› ‹_›
  · exact .finish (by simp_all) (by simp_all)
  · exact .promoted ‹_›
  · exact .finish (by simp_all) (by simp_all)

theorem backfillStep_of_abort (h : b.abort seen = some (e, c, b')) :
    BackfillStep seen b e c b' := by
  simp only [Backfill.abort] at h
  split at h
  · cases h
  · cases h
  · rename_i hlogged hready
    cases h
    exact .finish hlogged hready

theorem sweepStep_of_next (h : s.next seen = some (e, c, s')) : SweepStep seen s e c s' := by
  revert h
  fun_cases Sweep.next seen s <;> intro h <;> cases h
  · exact .swept ‹_›
  · exact .submit ‹_› ‹_›
  · exact .apply ‹_›
  · exact .own ‹_›
  · exact .remove ‹_› ‹_›
  · exact .finish (by simp_all) (by simp_all)
  · exact .removed ‹_›
  · exact .finish (by simp_all) (by simp_all)

theorem sweepStep_of_abort (h : s.abort seen = some (e, c, s')) : SweepStep seen s e c s' := by
  simp only [Sweep.abort] at h
  split at h
  · cases h
  · cases h
  · rename_i hlogged hremove
    cases h
    exact .finish hlogged hremove

end

/-! ## Any process -/

/-- A process goes on with `f` of the next state, or is idle again. -/
def orIdle {α : Type} (f : α → Task) (next : Option α) : Task := (next.map f).getD .idle

inductive TaskStep (cfg : Config) (seen : RelSeen) :
    Task → TaskAct → RelEffect → Caches → Task → Prop where
  | begin : TaskStep cfg seen .idle .begin .quiet seen.shared (.session (.begin seen.durable))
  | ddlStart (job : DdlJob) :
      TaskStep cfg seen .idle (.ddl job) .quiet seen.shared (.ddl (.start job))
  | backfillStart (h : Backfill.start seen.store indexId = some b) :
      TaskStep cfg seen .idle (.backfill indexId) .quiet seen.shared (.backfill b)
  | sweepStart (h : Sweep.start seen.store indexId = some s) :
      TaskStep cfg seen .idle (.sweep indexId) .quiet seen.shared (.sweep s)
  | session (h : SessionStep cfg seen s a e c s') :
      TaskStep cfg seen (.session s) (.session a) e c (.session s')
  | leave (h : s.canLeave = true) :
      TaskStep cfg seen (.session s) .leave .quiet seen.shared .idle
  | ddl (h : DdlStep cfg.eval seen d e c d') : TaskStep cfg seen (.ddl d) a e c (orIdle .ddl d')
  | backfill (h : BackfillStep seen b e c b') :
      TaskStep cfg seen (.backfill b) a e c (orIdle .backfill b')
  | sweep (h : SweepStep seen s e c s') : TaskStep cfg seen (.sweep s) a e c (orIdle .sweep s')

theorem taskStep_of_step {cfg : Config} {seen : RelSeen} {pc pc' : Task} {a : TaskAct}
    {e : RelEffect} {c : Caches} (h : (database cfg).step seen pc a = some (e, c, pc')) :
    TaskStep cfg seen pc a e c pc' := by
  change Task.step cfg seen pc a = some (e, c, pc') at h
  simp only [Task.step] at h
  split at h
  · cases h
    exact .begin
  · cases h
    exact .ddlStart _
  · obtain ⟨b, hb, heq⟩ := Option.map_eq_some_iff.mp h
    cases heq
    exact .backfillStart hb
  · obtain ⟨s, hs, heq⟩ := Option.map_eq_some_iff.mp h
    cases heq
    exact .sweepStart hs
  · obtain ⟨r, hr, heq⟩ := Option.map_eq_some_iff.mp h
    cases heq
    exact .session (sessionStep_of_step hr)
  · split at h <;> cases h
    exact .leave ‹_›
  · obtain ⟨r, hr, heq⟩ := Option.map_eq_some_iff.mp h
    cases heq
    exact .ddl (ddlStep_of_next hr)
  · obtain ⟨r, hr, heq⟩ := Option.map_eq_some_iff.mp h
    cases heq
    exact .ddl (ddlStep_of_abort hr)
  · obtain ⟨r, hr, heq⟩ := Option.map_eq_some_iff.mp h
    cases heq
    exact .backfill (backfillStep_of_next hr)
  · obtain ⟨r, hr, heq⟩ := Option.map_eq_some_iff.mp h
    cases heq
    exact .backfill (backfillStep_of_abort hr)
  · obtain ⟨r, hr, heq⟩ := Option.map_eq_some_iff.mp h
    cases heq
    exact .sweep (sweepStep_of_next hr)
  · obtain ⟨r, hr, heq⟩ := Option.map_eq_some_iff.mp h
    cases heq
    exact .sweep (sweepStep_of_abort hr)
  · cases h

/-- Where a session comes from. -/
theorem taskStep_to_session {cfg : Config} {seen : RelSeen} {pc : Task} {a : TaskAct}
    {e : RelEffect} {c : Caches} {s' : Session} (h : TaskStep cfg seen pc a e c (.session s')) :
    (pc = .idle ∧ s' = .begin seen.durable) ∨
      ∃ s sa, pc = .session s ∧ a = .session sa ∧ SessionStep cfg seen s sa e c s' := by
  generalize hpc : Task.session s' = pc' at h
  cases h with
  | begin =>
    cases hpc
    exact .inl ⟨rfl, rfl⟩
  | session hs =>
    cases hpc
    exact .inr ⟨_, _, rfl, rfl, hs⟩
  | @ddl _ _ _ d' _ _ => cases d' <;> cases hpc
  | @backfill _ _ _ b' _ _ => cases b' <;> cases hpc
  | @sweep _ _ _ s' _ _ => cases s' <;> cases hpc
  | _ => cases hpc

end RubixDb.Proof
