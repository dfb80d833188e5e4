import RubixDb.Proof.CommitEffect
import RubixDb.Proof.SessionRuns

/-!
# The locks of a database's processes

The discipline of `database`: which locks a process holds at each of its points, and that
whoever writes a guarded key holds its guard. A commit writes rows and entries of the
tables in its write-set only, and has the epoch lock of each exclusively; every other write
of a guarded key is to the catalog and under `ddl_lock`.
-/

namespace RubixDb.Proof

open Lib List

variable {es : RelStore} {ops : RelOps} {k : StoreKey} {cfg : Config} {seen : RelSeen}
    {e : RelEffect} {c : Caches}

/-! ## What is written -/

variable {t indexId : Nat} {pc pc' : Task} {a : TaskAct}

/-- A row is guarded by its table's epoch lock, the catalog by `ddl_lock`. -/
def databaseGuard : StoreKey → Option LockId
  | .row t _ => some (.epoch t)
  | .entry _ _ _ => none
  | _ => some .ddl

theorem mem_commitLockPlan {tx : Txn} {fks : List ForeignKeyRow} (h : t ∈ tx.writes.keys) :
    (t, true) ∈ commitLockPlan tx fks := by
  rw [commitLockPlan, mem_mergeSort]
  exact mem_append_left _ (mem_map_of_mem h)

/-! ## Writes of the catalog -/

/-- The keys of the catalog. -/
def catalogKey (k : StoreKey) : Prop := databaseGuard k = some .ddl

theorem allocateId_writes {kind : CounterKind} {id : Nat} {counter : StoreKey × Option StoreValue}
    (h : DdlJob.allocateId es kind = some (id, counter)) : catalogKey counter.1 := by
  simp only [DdlJob.allocateId] at h
  split at h <;> cases h
  exact rfl

theorem newConstraintOps_writes {fks : List NewTableForeignKey} {checks : List NewTableCheck}
    (h : DdlJob.newConstraintOps es t fks checks = some ops) : ∀ op ∈ ops, catalogKey op.1 := by
  rw [DdlJob.newConstraintOps] at h
  split at h
  · cases h
    exact forall_mem_nil _
  · obtain ⟨⟨first, _⟩, -, h⟩ := Option.bind_eq_some_iff.mp h
    simp only at h
    split at h <;> cases h
    simp only [forall_mem_append, forall_mem_map, forall_mem_singleton]
    exact ⟨⟨fun _ _ => rfl, fun _ _ => rfl⟩, rfl⟩

theorem transitionIndexState_eq {allowedFrom : List IndexState} {state : IndexState}
    (h : DdlJob.transitionIndexState es indexId allowedFrom state = some ops) :
    ∃ row, getIndexAsOf es (topSeq es) indexId = some row ∧ row.state ∈ allowedFrom ∧
      ops = [(.index indexId, some (.index { row with state := state }))] := by
  simp only [DdlJob.transitionIndexState] at h
  split at h
  · rename_i row hrow
    split at h <;> cases h
    rename_i hallowed
    exact ⟨row, hrow, contains_iff_mem.mp hallowed, rfl⟩
  · cases h

theorem removeOps_eq (h : Sweep.removeOps es indexId = some ops) :
    (∃ row, getIndexAsOf es (topSeq es) indexId = some row ∧ row.state = .dropping) ∧
      ops = [(.index indexId, none)] := by
  simp only [Sweep.removeOps] at h
  split at h
  · rename_i row hrow
    split at h <;> cases h
    exact ⟨⟨row, hrow, ‹_›⟩, rfl⟩
  · cases h

/-- A batch of one operation. -/
theorem writes_singleton {k' : StoreKey} {v : Option StoreValue}
    (h : Writes [(k', v)] k) : k = k' := by
  obtain ⟨w, hw⟩ := h
  exact (Prod.mk.inj (mem_singleton.mp hw)).1

/-- **A catalog change writes the catalog only.** -/
theorem ddl_writes {caches : Caches} {job : DdlJob}
    (h : job.ops es caches = some ops) : ∀ op ∈ ops, catalogKey op.1 := by
  cases job with
  -- a job writes catalog rows and the counters it takes ids from
  | addCheck t name expression =>
    obtain ⟨shape, -, h⟩ := Option.bind_eq_some_iff.mp h
    split_ifs at h
    obtain ⟨⟨id, counter⟩, hid, h⟩ := Option.bind_eq_some_iff.mp h
    cases h
    simp only [forall_mem_cons]
    exact ⟨allocateId_writes hid, rfl, rfl, forall_mem_nil _⟩
  | dropCheck check =>
    simp only [DdlJob.ops, DdlJob.dropCheckOps] at h
    split at h <;> cases h
    refine forall_mem_cons.mpr ⟨rfl, fun op hop => ?_⟩
    obtain ⟨shape, -, rfl⟩ := Option.map_eq_some_iff.mp (Option.mem_toList.mp hop)
    exact rfl
  | addForeignKey new =>
    obtain ⟨child, -, h⟩ := Option.bind_eq_some_iff.mp h
    obtain ⟨parent, -, h⟩ := Option.bind_eq_some_iff.mp h
    split_ifs at h
    obtain ⟨⟨id, counter⟩, hid, h⟩ := Option.bind_eq_some_iff.mp h
    cases h
    simp only [forall_mem_cons]
    exact ⟨allocateId_writes hid, rfl, rfl, forall_mem_nil _⟩
  | dropForeignKey fk =>
    simp only [DdlJob.ops, DdlJob.dropForeignKeyOps] at h
    split at h <;> cases h
    refine forall_mem_cons.mpr ⟨rfl, fun op hop => ?_⟩
    obtain ⟨shape, -, rfl⟩ := Option.map_eq_some_iff.mp (Option.mem_toList.mp hop)
    exact rfl
  | createTable name columns pkOrdinals fks checks =>
    obtain ⟨⟨t, tableCounter⟩, ht, h⟩ := Option.bind_eq_some_iff.mp h
    obtain ⟨⟨i, indexCounter⟩, hi, h⟩ := Option.bind_eq_some_iff.mp h
    obtain ⟨shape, -, h⟩ := Option.bind_eq_some_iff.mp h
    obtain ⟨constraints, hc, h⟩ := Option.bind_eq_some_iff.mp h
    cases h
    refine forall_mem_append.mpr ⟨?_, newConstraintOps_writes hc⟩
    simp only [forall_mem_cons]
    exact ⟨allocateId_writes ht, allocateId_writes hi, rfl, rfl, forall_mem_nil _⟩
  | createIndex t name kind columnOrdinals =>
    obtain ⟨shape, -, h⟩ := Option.bind_eq_some_iff.mp h
    split_ifs at h
    obtain ⟨⟨id, counter⟩, hid, h⟩ := Option.bind_eq_some_iff.mp h
    cases h
    simp only [forall_mem_cons]
    exact ⟨allocateId_writes hid, rfl, forall_mem_nil _⟩
  | markFailed indexId =>
    obtain ⟨row, -, -, rfl⟩ := transitionIndexState_eq h
    exact forall_mem_singleton.mpr rfl
  | markDropping index =>
    simp only [DdlJob.ops, DdlJob.markDroppingOps] at h
    split_ifs at h
    obtain ⟨row, -, -, rfl⟩ := transitionIndexState_eq h
    exact forall_mem_singleton.mpr rfl

theorem chunkOps_writes {index : IndexRow} {pks : List Bytes} :
    ∀ {ops : RelOps}, chunkOps es index pks = .ok ops → Writes ops k →
      ∃ body, k = .entry index.tableId index.indexId body := by
  induction pks with
  | nil =>
    intro ops h hk
    cases h
    obtain ⟨v, hv⟩ := hk
    cases hv
  | cons pk pks ih =>
    intro ops h hk
    simp only [chunkOps] at h
    split at h
    · exact ih h hk
    · rename_i row _
      obtain ⟨key, hkey, h⟩ := bind_eq_ok.mp h
      obtain ⟨rest, hrest, h⟩ := bind_eq_ok.mp h
      cases h
      obtain ⟨v, hv⟩ := hk
      rcases mem_cons.mp hv with heq | hv
      · have hentry : entryOf index.tableId index (some row) pk = some key :=
          entryOf_of_ok (by rw [optionalEntryKey, hkey]; rfl)
        obtain ⟨r, x, -, -, hk⟩ := entryOf_eq_some hentry
        exact ⟨x ++ pk, (Prod.mk.inj heq).1.trans hk⟩
      · exact ih hrest ⟨v, hv⟩

/-! ## What is held -/

def epochLocks (held : List (Nat × Bool)) : List (LockId × Bool) :=
  held.map fun h => (.epoch h.1, h.2)

def exclusiveEpochs (tables : List Nat) : List (LockId × Bool) :=
  tables.map fun t => (.epoch t, true)

def sessionHolds (s : Session) : List (LockId × Bool) :=
  match s.phase with
  | .locking _ _ _ held _ => epochLocks held
  | .validating _ held _ => epochLocks held
  | .listed _ _ held => epochLocks held
  | .logged held => epochLocks held
  | .applied held => epochLocks held
  | _ => []

def ddlHolds (d : Ddl) : List (LockId × Bool) :=
  match d.phase with
  | .locking held _ => exclusiveEpochs held
  | .checked => exclusiveEpochs d.job.tables.reverse
  | _ => (.ddl, true) :: exclusiveEpochs d.job.tables.reverse

def backfillHolds (b : Backfill) : List (LockId × Bool) :=
  match b.phase with
  | .locked _ _ => [(.epoch b.index.tableId, true)]
  | .logged _ => [(.epoch b.index.tableId, true)]
  | .applied _ => [(.epoch b.index.tableId, true)]
  | .owning => [(.ddl, true)]
  | .readyLogged => [(.ddl, true)]
  | .readyApplied => [(.ddl, true)]
  | _ => []

def sweepHolds (s : Sweep) : List (LockId × Bool) :=
  match s.phase with
  | .owning => [(.ddl, true)]
  | .removeLogged => [(.ddl, true)]
  | .removeApplied => [(.ddl, true)]
  | _ => []

def taskHolds : Task → List (LockId × Bool)
  | .idle => []
  | .session s => sessionHolds s
  | .ddl d => ddlHolds d
  | .backfill b => backfillHolds b
  | .sweep s => sweepHolds s

def taskInFlight : Task → Bool
  | .idle => false
  | .session s => match s.phase with
      | .logged _ => true
      | _ => false
  | .ddl d => match d.phase with
      | .logged => true
      | _ => false
  | .backfill b => match b.phase with
      | .logged _ => true
      | .readyLogged => true
      | _ => false
  | .sweep s => match s.phase with
      | .logged _ => true
      | .removeLogged => true
      | _ => false

/-- A commit has or is about to take the locks of its plan. -/
def sessionValid (s : Session) : Prop :=
  match s.phase with
  | .locking _ _ planned held todo => ∀ x ∈ commitLockPlan s.tx planned, x ∈ held ∨ x ∈ todo
  | .validating planned held _ => ∀ x ∈ commitLockPlan s.tx planned, x ∈ held
  | .listed planned _ held => ∀ x ∈ commitLockPlan s.tx planned, x ∈ held
  | _ => True

def ddlValid (d : Ddl) : Prop :=
  match d.phase with
  | .locking held todo => held.reverse ++ todo = d.job.tables
  | _ => True

def taskValid : Task → Prop
  | .session s => sessionValid s
  | .ddl d => ddlValid d
  | _ => True

/-! ## The discipline -/

/-- What a step means for the locks of a session. -/
structure SessionLocked (s : Session) (e : RelEffect) (s' : Session) : Prop where
  valid : sessionValid s → sessionValid s'
  holds : sessionHolds s' = e.heldAfter (sessionHolds s)
  before : taskInFlight (.session s) = e.isApply
  after : taskInFlight (.session s') = e.isSubmit

/-- Only the phases matter; outside `locking` and what follows it nothing is held. -/
theorem sessionLocked {s s' : Session} {a : SessionAct}
    (hs : SessionStep cfg seen s a e c s') : SessionLocked s e s' := by
  obtain ⟨snapshot, tx, savepoint, phase⟩ := s
  cases hs with
  | execute h | putRow h | deleteRow h | checkMore h _ | checked h _ _ | refused h _
  | endWrites h | recheckMore h _ | endStatement h | failChecking h | failWriting h
  | failRechecking h | plan h | planMore h _ | validated h _ | invalid h | apply h | release h
  | failPlanning h | failValidating h | failListed h =>
    cases h
    exact ⟨fun _ => trivial, rfl, rfl, rfl⟩
  | put h | delete h | cascade h =>
    cases h
    rw [Session.within]
    split <;> exact ⟨fun _ => trivial, rfl, rfl, rfl⟩
  | rechecked h _ =>
    cases h
    rw [Session.recheckTable]
    split <;> exact ⟨fun _ => trivial, rfl, rfl, rfl⟩
  | commit h | retry h =>
    cases h
    split <;> exact ⟨fun _ => trivial, rfl, rfl, rfl⟩
  | planned h _ =>
    cases h
    exact ⟨fun _ _ hx => .inr hx, rfl, rfl, rfl⟩
  | lock h =>
    cases h
    refine ⟨fun hv x hx => ?_, rfl, rfl, rfl⟩
    -- the lock at the head of the plan is taken
    rcases hv x hx with hheld | htodo
    · exact .inl (mem_cons_of_mem _ hheld)
    · rcases mem_cons.mp htodo with rfl | htodo
      · exact .inl mem_cons_self
      · exact .inr htodo
  | locked h _ =>
    cases h
    refine ⟨fun hv x hx => ?_, rfl, rfl, rfl⟩
    rcases hv x hx with hheld | htodo
    · exact hheld
    · cases htodo
  | listMore h _ | listed h _ =>
    cases h
    exact ⟨id, rfl, rfl, rfl⟩

/-- What a step means for the locks of a process. -/
structure TaskLocked (pc : Task) (e : RelEffect) (pc' : Task) : Prop where
  valid : taskValid pc → taskValid pc'
  holds : taskValid pc → taskHolds pc' = e.heldAfter (taskHolds pc)
  before : taskInFlight pc = e.isApply
  after : taskInFlight pc' = e.isSubmit

theorem ddlLocked {eval : CheckEval} {d : Ddl} {d' : Option Ddl}
    (hs : DdlStep eval seen d e c d') : TaskLocked (.ddl d) e (orIdle .ddl d') := by
  obtain ⟨job, phase⟩ := d
  cases hs with
  | lock h =>
    cases h
    refine ⟨fun hv => ?_, fun _ => rfl, rfl, rfl⟩
    show (_ :: _).reverse ++ _ = _
    rw [reverse_cons, append_assoc]
    exact hv
  | @accepted held h _ =>
    cases h
    refine ⟨fun _ => trivial, fun hv => ?_, rfl, rfl⟩
    -- nothing is left to be locked
    have htables : held.reverse ++ [] = job.tables := hv
    show exclusiveEpochs job.tables.reverse = exclusiveEpochs held
    rw [← htables, append_nil, reverse_reverse]
  | own h | submit h _ | apply h | invalidate h =>
    cases h
    exact ⟨fun _ => trivial, fun _ => rfl, rfl, rfl⟩
  | finish h =>
    refine ⟨fun _ => trivial, fun _ => rfl, ?_, rfl⟩
    rw [taskInFlight]
    split
    · exact absurd ‹_› h
    · rfl

theorem backfillLocked {b : Backfill} {b' : Option Backfill} (hs : BackfillStep seen b e c b') :
    TaskLocked (.backfill b) e (orIdle .backfill b') := by
  obtain ⟨index, phase⟩ := b
  cases hs with
  | snap h | scan h | lock h | skip h _ | submit h _ | apply h | release h | verify h
  | verified h _ | duplicate h | own h | promote h _ | promoted h =>
    cases h
    exact ⟨fun _ => trivial, fun _ => rfl, rfl, rfl⟩
  | scanned h =>
    cases h
    split <;> exact ⟨fun _ => trivial, fun _ => rfl, rfl, rfl⟩
  | finish h h' =>
    refine ⟨fun _ => trivial, fun _ => rfl, ?_, rfl⟩
    rw [taskInFlight]
    split
    · exact absurd ‹_› (h _)
    · exact absurd ‹_› h'
    · rfl

theorem sweepLocked {s : Sweep} {s' : Option Sweep}
    (hs : SweepStep seen s e c s') : TaskLocked (.sweep s) e (orIdle .sweep s') := by
  obtain ⟨index, phase⟩ := s
  cases hs with
  | swept h | submit h _ | apply h | own h | remove h _ | removed h =>
    cases h
    exact ⟨fun _ => trivial, fun _ => rfl, rfl, rfl⟩
  | finish h h' =>
    refine ⟨fun _ => trivial, fun _ => rfl, ?_, rfl⟩
    rw [taskInFlight]
    split
    · exact absurd ‹_› (h _)
    · exact absurd ‹_› h'
    · rfl

theorem taskLocked (hs : TaskStep cfg seen pc a e c pc') : TaskLocked pc e pc' := by
  cases hs with
  | begin => exact ⟨fun _ => trivial, fun _ => rfl, rfl, rfl⟩
  | ddlStart job => exact ⟨fun _ => rfl, fun _ => rfl, rfl, rfl⟩
  | @backfillStart _ b h | @sweepStart _ s h =>
    obtain ⟨row, -, rfl⟩ := Option.map_eq_some_iff.mp h
    exact ⟨fun _ => trivial, fun _ => rfl, rfl, rfl⟩
  | session h =>
    have hl := sessionLocked h
    exact ⟨hl.valid, fun _ => hl.holds, hl.before, hl.after⟩
  | @leave s h =>
    have hout : sessionHolds s = [] ∧ taskInFlight (.session s) = false := by
      rw [Session.canLeave] at h
      rw [sessionHolds, taskInFlight]
      split at h
      · rename_i hphase
        rw [hphase]
        exact ⟨rfl, rfl⟩
      · rename_i hphase
        rw [hphase]
        exact ⟨rfl, rfl⟩
      · cases h
    exact ⟨fun _ => trivial, fun _ => hout.1.symm, hout.2, rfl⟩
  | ddl h => exact ddlLocked h
  | backfill h => exact backfillLocked h
  | sweep h => exact sweepLocked h

/-- Whoever writes a guarded key has its lock. -/
theorem taskGuarded (hs : TaskStep cfg seen pc a (.submit ops) c pc') (hvalid : taskValid pc)
    {lock : LockId} (hk : Writes ops k) (hguard : databaseGuard k = some lock) :
    (lock, true) ∈ taskHolds pc := by
  cases hs with
  | @session s _ _ _ _ h =>
    cases h with
    | @validated planned list held _ hphase hops =>
      rw [taskValid, sessionValid, hphase] at hvalid
      rw [taskHolds, sessionHolds, hphase]
      obtain ⟨t, ht, hon⟩ := commit_writes hops hk
      have hheld : (t, true) ∈ held := hvalid _ (mem_commitLockPlan ht)
      cases k with
      | row t' pk =>
        obtain rfl : t' = t := hon
        cases hguard
        exact mem_map.mpr ⟨_, hheld, rfl⟩
      -- an index entry has no guard of its own
      | entry _ _ _ => cases hguard
      | _ => exact absurd hon id
  | ddl h =>
    cases h with
    | submit hphase hops =>
      obtain ⟨v, hv⟩ := hk
      obtain rfl := Option.some.inj (hguard.symm.trans (ddl_writes hops _ hv))
      rw [taskHolds, ddlHolds, hphase]
      exact mem_cons_self
  | backfill h =>
    cases h with
    | submit hphase hops =>
      obtain ⟨body, rfl⟩ := chunkOps_writes hops hk
      cases hguard
    | promote hphase hops =>
      obtain ⟨row, -, -, rfl⟩ := transitionIndexState_eq hops
      rw [writes_singleton hk] at hguard
      cases hguard
      rw [taskHolds, backfillHolds, hphase]
      exact mem_singleton.mpr rfl
  | sweep h =>
    cases h with
    | submit hphase hchunk =>
      obtain ⟨v, hv⟩ := hk
      obtain ⟨body, -, heq⟩ := mem_map.mp hv
      rw [← (Prod.mk.inj heq).1] at hguard
      cases hguard
    | remove hphase hops =>
      obtain ⟨-, rfl⟩ := removeOps_eq hops
      rw [writes_singleton hk] at hguard
      cases hguard
      rw [taskHolds, sweepHolds, hphase]
      exact mem_singleton.mpr rfl

/-- **The lock discipline of a database.** -/
def databaseDiscipline (cfg : Config) : Discipline (database cfg) where
  valid := taskValid
  holds := taskHolds
  inFlight := taskInFlight
  guard := databaseGuard
  valid_idle := trivial
  holds_idle := rfl
  free_idle := rfl
  valid_step hv h := (taskLocked (taskStep_of_step h)).valid hv
  holds_step hv h := (taskLocked (taskStep_of_step h)).holds hv
  flight_before h := (taskLocked (taskStep_of_step h)).before
  flight_after h := (taskLocked (taskStep_of_step h)).after
  guarded hv h _ _ hk hguard := taskGuarded (taskStep_of_step h) hv hk hguard

end RubixDb.Proof
