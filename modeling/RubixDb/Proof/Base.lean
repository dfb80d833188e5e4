import RubixDb.Proof.Open
import RubixDb.Proof.Step

/-!
# Where versions come from

`Numbered` is what every argument assumes of the log: its records are numbered in
order, only durable ones are applied, and each at most once. `Sourced` says that no
MemTable, file or cycle holds a version that is not one of an applied record. Together
they make everything the engine holds coherent (`coherent_applied`): key and
sequence number identify the version.

Both are about one life of the process; what opening it again does to them is in
`RubixDb.Proof.Reopen`.
-/

namespace RubixDb.Proof

open Lib List

variable {e : Entry} {r : WalRecord} {stage : FlushStage} {w₁ : World} {j j' : FlushJob} {c : Cycle}
    {id : Nat} {oldest : Option Nat}

/-- The step stops the process and opens it again. -/
def isReopen : Act → Bool
  | .reopen _ _ _ => true
  | _ => false

/-- Frozen MemTables the flush thread is not done with, newest first. -/
def unflushed (w : World) : List FrozenTable :=
  (w.queue.map (·.1)).reverse ++ (w.flush.map (·.frozen)).toList

/-- The table a cycle has written. -/
def cycleOutput : CycleStage → Option SsTable
  | .written output _ => some output
  | .removing output _ => some output
  | _ => none

/-- The versions of the applied records. -/
def appliedEntries (w : World) : List Entry := w.applied.flatMap WalRecord.entries

theorem mem_appliedEntries {w : World} : e ∈ appliedEntries w ↔ ∃ r ∈ w.applied, e ∈ r.entries := by
  simp [appliedEntries, mem_flatMap]

/-- The log and the marks into it. -/
structure Numbered (w : World) : Prop where
  sorted : SortedBy (·.seq) w.log
  positive : ∀ r ∈ w.log, 0 < r.seq
  below : ∀ r ∈ w.log, r.seq < w.nextSeq
  fits : w.nextSeq ≤ u64Max
  durable : w.durable < w.nextSeq
  applied : ∀ r ∈ w.applied, r ∈ w.log ∧ r.seq ≤ w.durable
  pending : ∀ r ∈ w.pending, r ∈ w.log ∧ r ∉ w.applied ∧ w.cfg.accepts r.op = true
  acked : ∀ r ∈ w.acked, r ∈ w.applied
  marker : ∀ j p, w.flush = some j → j.stage = .await p →
    ⟨p.seq, .checkpointMarker j.ckpt⟩ ∈ w.log

variable {crc : Bytes → UInt32} {w w' : World} {a : Act}

theorem numbered_init (cfg : LsmConfig) : Numbered (World.init cfg) where
  sorted := .nil
  positive := by simp [World.init]
  below := by simp [World.init]
  fits := by show 1 ≤ u64Max; decide
  durable := Nat.one_pos
  applied := by simp [World.init]
  pending := by simp [World.init]
  acked := by simp [World.init]
  marker := by intro j p hj; cases hj

/-- The log has one record per number. -/
theorem Numbered.unique (h : Numbered w) {r' : WalRecord} (hr : r ∈ w.log) (hr' : r' ∈ w.log)
    (hs : r.seq = r'.seq) : r = r' :=
  h.sorted.eq_of_key_eq hr hr' hs

theorem Numbered.flushTo (h : Numbered w) (j : FlushJob)
    (hs : ∀ p, stage ≠ .await p) : Numbered (w.flushTo j stage) :=
  { h with
    marker := by
      intro j' p hj hst
      cases hj
      exact absurd hst (hs p) }

/-- A record goes into the log under the next number. -/
theorem Numbered.logRecord (h : Numbered w) (op : WalOp) (hroom : w.nextSeq < u64Max) :
    Numbered (w.logRecord op) :=
  { h with
    sorted := by
      refine pairwise_append.mpr ⟨h.sorted, pairwise_singleton _ _, ?_⟩
      intro r hr r' hr'
      obtain rfl := mem_singleton.mp hr'
      exact h.below r hr
    positive := forall_mem_concat h.positive (Nat.zero_lt_of_lt h.durable)
    below := forall_mem_concat (fun r hr => Nat.lt_succ_of_lt (h.below r hr)) (Nat.lt_succ_self _)
    fits := hroom
    durable := Nat.lt_succ_of_lt h.durable
    applied := fun r hr => ⟨mem_append_left _ (h.applied r hr).1, (h.applied r hr).2⟩
    pending := fun r hr => ⟨mem_append_left _ (h.pending r hr).1, (h.pending r hr).2⟩
    marker := fun j p hj hst => mem_append_left _ (h.marker j p hj hst) }

/-- The next record is not one that was applied. -/
theorem Numbered.fresh (h : Numbered w) (op : WalOp) : ⟨w.nextSeq, op⟩ ∉ w.applied :=
  fun hr => Nat.lt_irrefl _ (h.below _ (h.applied _ hr).1)

theorem Numbered.applyRecord (h : Numbered w) (hr : r ∈ w.pending)
    (hd : r.seq ≤ w.durable) : Numbered (w.applyRecord r) :=
  { h with
    applied := forall_mem_concat h.applied ⟨(h.pending _ hr).1, hd⟩
    pending := by
      intro r' hr'
      obtain ⟨hr', hne⟩ := mem_filter.mp hr'
      obtain ⟨hlog, hnot, hacc⟩ := h.pending r' hr'
      refine ⟨hlog, fun hap => ?_, hacc⟩
      rcases mem_append.mp hap with hap | hap
      · exact hnot hap
      · simp [mem_singleton.mp hap] at hne
    acked := fun r' hr' => mem_append_left _ (h.acked r' hr') }

theorem Numbered.ack (h : Numbered w) (hr : r ∈ w.applied) : Numbered (w.ack r) :=
  { h with
    acked := forall_mem_concat h.acked hr }

theorem Numbered.accountMarker (h : Numbered w) {seq ckpt : Nat}
    (hlog : ⟨seq, .checkpointMarker ckpt⟩ ∈ w.log) (hd : seq ≤ w.durable) :
    Numbered (w.accountMarker seq ckpt) :=
  { h with
    applied := forall_mem_concat h.applied ⟨hlog, hd⟩
    pending := by
      intro r hr
      obtain ⟨hl, hnot, hacc⟩ := h.pending r hr
      refine ⟨hl, fun hap => ?_, hacc⟩
      rcases mem_append.mp hap with hap | hap
      · exact hnot hap
      · -- writers never wait for a marker
        rw [mem_singleton.mp hap] at hacc
        cases hacc
    acked := fun r hr => mem_append_left _ (h.acked r hr) }

theorem mem_applied_self (w : World) (r : WalRecord) : r ∈ (w.applyRecord r).applied :=
  mem_append_right _ (mem_singleton_self r)

/-- **The log stays numbered** in every step of one life of the process. -/
theorem numbered_step (h : Numbered w) (hs : Step crc w a w') (hne : isReopen a = false) :
    Numbered w' := by
  cases hs with
  | @append op hacc hroom =>
    have hl := h.logRecord op hroom
    exact { hl with
      pending := forall_mem_concat hl.pending
        ⟨mem_append_right _ (by simp), h.fresh _, hacc⟩ }
  | fsync hn =>
    exact { h with
      durable := max_lt h.durable hn
      applied := fun r hr =>
        ⟨(h.applied r hr).1, (h.applied r hr).2.trans (Nat.le_max_left _ _)⟩ }
  | applyRefused hr hd => exact h.applyRecord hr hd
  | applyFreeze hr hd =>
    have hf : Numbered ((w.applyRecord _).freeze) := { h.applyRecord hr hd with }
    exact hf.ack (mem_applied_self w _)
  | apply hr hd => exact (h.applyRecord hr hd).ack (mem_applied_self w _)
  | flushRecv =>
    exact { h with
      marker := by
        intro j p hj hst
        cases hj
        cases hst }
  | flushRotate hj =>
    have hw : Numbered w.rotate := { h with }
    refine hw.flushTo _ fun p hp => ?_
    split at hp <;> cases hp
  | @flushMarker j offset hj hst hroom =>
    exact { h.logRecord (.checkpointMarker j.ckpt) hroom with
      marker := by
        intro j' p hj' hst'
        cases hj'
        obtain rfl := FlushStage.await.inj hst'
        exact mem_append_right _ (by simp) }
  | flushAwait hj hst hd =>
    exact (h.accountMarker (h.marker _ _ hj hst) hd).flushTo _ (by simp)
  | flushPurge => exact { h with marker := by intro j p hj; cases hj }
  | reopen => cases hne
  | _ =>
    first
    | exact { h with }
    | refine Numbered.flushTo ?_ _ fun p hp => ?_
      · exact { h with }
      · cases hp

/-! ## Frozen MemTables -/

theorem unflushed_freeze (w : World) :
    unflushed w.freeze = ⟨w.nextUid, w.active⟩ :: unflushed w := by
  simp [unflushed, World.freeze]

theorem unflushed_recv {f : FrozenTable} {ckpt : Nat} {rest : List (FrozenTable × Nat)}
    (hf : w.flush = none) (hq : w.queue = (f, ckpt) :: rest) :
    unflushed { w with queue := rest, flush := some ⟨f, ckpt, .start, none, none, false⟩ } =
      unflushed w := by
  simp [unflushed, hf, hq]

/-- The flush thread going on with its MemTable. -/
theorem unflushed_flushTo (hj : w.flush = some j) (hq : w₁.queue = w.queue)
    (hj' : j'.frozen = j.frozen) : unflushed (w₁.flushTo j' stage) = unflushed w := by
  simp [unflushed, World.flushTo, hj, hq, hj']

theorem unflushed_purge (hj : w.flush = some j) :
    unflushed w = unflushed { w.purgeBefore j.ckpt [] with flush := none } ++ [j.frozen] := by
  simp [unflushed, World.purgeBefore, hj]

/-- The flush queue and the immutables. -/
structure Queued (w : World) : Prop where
  immutables : w.immutables.Sublist (unflushed w)
  uids : ((unflushed w).map (·.uid)).Nodup
  uidBelow : ∀ f ∈ unflushed w, f.uid < w.nextUid
  retired : ∀ j, w.flush = some j → j.stage = .purge → ∀ f ∈ w.immutables, f.uid ≠ j.frozen.uid

theorem queued_init (cfg : LsmConfig) : Queued (World.init cfg) where
  immutables := .slnil
  uids := nodup_nil
  uidBelow := by intro f hf; cases hf
  retired := by intro j hj; cases hj

theorem job_mem_unflushed (hj : w.flush = some j) : j.frozen ∈ unflushed w := by
  simp [unflushed, hj]

/-- The flush thread going on, with the immutables as they were. -/
theorem Queued.flushTo (h : Queued w) (hj : w.flush = some j) (hq : w₁.queue = w.queue)
    (hi : w₁.immutables = w.immutables) (hn : w₁.nextUid = w.nextUid) (hj' : j'.frozen = j.frozen)
    (hst : stage ≠ .purge) : Queued (w₁.flushTo j' stage) where
  immutables := by
    rw [unflushed_flushTo hj hq hj']
    exact (congrArg (List.Sublist · _) hi).mpr h.immutables
  uids := by rw [unflushed_flushTo hj hq hj']; exact h.uids
  uidBelow := by
    rw [unflushed_flushTo hj hq hj']
    intro f hf
    exact (h.uidBelow f hf).trans_eq hn.symm
  retired := by
    intro k hk hst'
    cases hk
    exact absurd hst' hst

theorem Queued.freeze (h : Queued w) : Queued w.freeze where
  immutables := by
    rw [unflushed_freeze]
    exact h.immutables.cons_cons _
  uids := by
    rw [unflushed_freeze]
    refine nodup_cons.mpr ⟨fun hu => ?_, h.uids⟩
    obtain ⟨f, hf, he⟩ := mem_map.mp hu
    exact absurd he (Nat.ne_of_lt (h.uidBelow f hf))
  uidBelow := by
    rw [unflushed_freeze]
    exact forall_mem_cons.mpr
      ⟨Nat.lt_succ_self _, fun f hf => Nat.lt_succ_of_lt (h.uidBelow f hf)⟩
  retired := fun j hj hst => forall_mem_cons.mpr
    ⟨(Nat.ne_of_lt (h.uidBelow _ (job_mem_unflushed hj))).symm, h.retired j hj hst⟩

theorem queued_retire (h : Queued w) (hj : w.flush = some j) :
    Queued ((w.retire j.frozen).flushTo j .purge) := by
  have hu : unflushed ((w.retire j.frozen).flushTo j .purge) = unflushed w :=
    unflushed_flushTo hj rfl rfl
  exact {
    immutables := by
      rw [hu]
      exact filter_sublist.trans h.immutables
    uids := by rw [hu]; exact h.uids
    uidBelow := by rw [hu]; exact h.uidBelow
    retired := by
      intro k hk _ f hf
      cases hk
      simpa using (mem_filter.mp hf).2 }

theorem queued_purge (h : Queued w) (hj : w.flush = some j)
    (hst : j.stage = .purge) : Queued { w.purgeBefore j.ckpt [] with flush := none } := by
  have hu := unflushed_purge hj
  have hsub : w.immutables.Sublist (unflushed { w.purgeBefore j.ckpt [] with flush := none }) := by
    obtain ⟨l₁, l₂, hl, h₁, h₂⟩ := sublist_append_iff.mp (hu ▸ h.immutables)
    cases l₂ with
    | nil => rw [hl, append_nil]; exact h₁
    | cons f l =>
      have hf : f = j.frozen := mem_singleton.mp (h₂.subset (by simp))
      exact absurd (congrArg FrozenTable.uid hf) (h.retired j hj hst f (by simp [hl]))
  have huids := h.uids
  rw [hu, map_append] at huids
  exact {
    immutables := hsub
    uids := huids.of_append_left
    uidBelow := fun f hf => h.uidBelow f (hu ▸ mem_append_left _ hf)
    retired := by intro k hk; cases hk }

theorem queued_step (h : Queued w) (hs : Step crc w a w') (hne : isReopen a = false) :
    Queued w' := by
  cases hs with
  | @applyFreeze r hr hd =>
    have hw : Queued (w.applyRecord r) := { h with }
    exact { hw.freeze with }
  | flushRecv hf hq =>
    have hu := unflushed_recv hf hq
    exact {
      immutables := by rw [hu]; exact h.immutables
      uids := by rw [hu]; exact h.uids
      uidBelow := by rw [hu]; exact h.uidBelow
      retired := by
        intro k hk hst
        cases hk
        cases hst }
  | flushRotate hj =>
    refine h.flushTo hj rfl rfl rfl rfl ?_
    split <;> simp
  | flushRetire hj => exact queued_retire h hj
  | flushPurge hj hst => exact queued_purge h hj hst
  | reopen => cases hne
  | flushBegin hj | flushResume hj | flushWrite hj | flushAdd hj | flushAddFail hj
  | flushInstall hj | flushInstalled hj | flushInstallGone hj | flushMarker hj | flushAwait hj
  | flushCheckpointDone hj | flushCheckpoint hj | flushCheckpointFail hj | flushPurgeFail hj
  | flushFail hj => exact h.flushTo hj rfl rfl rfl rfl (by simp)
  | _ => exact { h with }

/-! ## Table files -/

/-- The id stands for a table the flush thread is writing, recording or installing. -/
def Uses (j : FlushJob) (id : Nat) : Prop :=
  j.stage = .write id ∨ (∃ size, j.stage = .add id size) ∨ j.published = some id

/-- Files, their ids, and who is about to write under which id. -/
structure Filed (w : World) : Prop where
  nodup : (w.files.map (·.table.id)).Nodup
  below : ∀ f ∈ w.files, f.table.id < w.nextId
  usesBelow : ∀ j id, w.flush = some j → Uses j id → id < w.nextId
  writing : ∀ j id, w.flush = some j → j.stage = .write id → ∀ f ∈ w.files, f.table.id ≠ id
  own : ∀ j id, w.flush = some j → Uses j id → ∀ f ∈ w.files, f.table.id = id →
    f.table = writeFromMemtable j.frozen.table id
  installing : ∀ j id, w.flush = some j → j.stage = .install id → j.published = some id
  allocated : ∀ c oldest id, w.cycle = some c → c.stage = .allocated oldest id →
    id < w.nextId ∧ (∀ f ∈ w.files, f.table.id ≠ id) ∧
      ∀ j i, w.flush = some j → Uses j i → i ≠ id

/-- The flush thread goes on, using no id it did not use before. -/
theorem Filed.flushTo (h : Filed w) (hj : w.flush = some j) (hf : w₁.files = w.files)
    (hn : w₁.nextId = w.nextId) (hc : w₁.cycle = w.cycle) (hfz : j'.frozen = j.frozen)
    (hst : ∀ id, stage ≠ .write id) (huse : ∀ id, Uses { j' with stage := stage } id → Uses j id)
    (hins : ∀ id, stage = .install id → j'.published = some id) : Filed (w₁.flushTo j' stage) where
  nodup := hf ▸ h.nodup
  below := hf ▸ hn ▸ h.below
  usesBelow := by
    intro k id hk hu
    cases hk
    exact (h.usesBelow j id hj (huse id hu)).trans_eq hn.symm
  writing := by
    intro k id hk hst'
    cases hk
    exact absurd hst' (hst id)
  own := by
    intro k id hk hu f hf' hid
    cases hk
    have := h.own j id hj (huse id hu) f (hf ▸ hf') hid
    rwa [← hfz] at this
  installing := by
    intro k id hk hst'
    cases hk
    exact hins id hst'
  allocated := by
    intro c oldest id hc' hst'
    obtain ⟨hlt, hfs, hus⟩ := h.allocated c oldest id (hc ▸ hc') hst'
    refine ⟨hlt.trans_eq hn.symm, fun f hf' => hfs f (hf ▸ hf'), fun k i hk hu => ?_⟩
    cases hk
    exact hus j i hj (huse i hu)

/-- No job, or one that uses no id. -/
theorem Filed.jobWithout (h : Filed w) (hf : w₁.files = w.files) (hn : w₁.nextId = w.nextId)
    (hc : w₁.cycle = w.cycle)
    (hno : ∀ j id, w₁.flush = some j → ¬ Uses j id ∧ j.stage ≠ .install id) : Filed w₁ where
  nodup := hf ▸ h.nodup
  below := hf ▸ hn ▸ h.below
  usesBelow := fun j id hj hu => absurd hu (hno j id hj).1
  writing := fun j id hj hst => absurd (.inl hst) (hno j id hj).1
  own := fun j id hj hu => absurd hu (hno j id hj).1
  installing := fun j id hj hst => absurd hst (hno j id hj).2
  allocated := by
    intro c oldest id hc' hst
    obtain ⟨hlt, hfs, -⟩ := h.allocated c oldest id (hc ▸ hc') hst
    exact ⟨hlt.trans_eq hn.symm, fun f hf' => hfs f (hf ▸ hf'),
      fun j i hj hu => absurd hu (hno j i hj).1⟩

theorem uses_of_published (hpub : j'.published = j.published) (hw : ∀ id, stage ≠ .write id)
    (ha : ∀ id size, stage ≠ .add id size) (id : Nat) (hu : Uses { j' with stage := stage } id) :
    Uses j id := by
  rcases hu with hst | ⟨size, hst⟩ | hp
  · exact absurd hst (hw id)
  · exact absurd hst (ha id size)
  · exact .inr (.inr (hpub ▸ hp))

/-- The same without a change to what is published. -/
theorem Filed.flushOn (h : Filed w) (hj : w.flush = some j) (hf : w₁.files = w.files)
    (hn : w₁.nextId = w.nextId) (hc : w₁.cycle = w.cycle) (hfz : j'.frozen = j.frozen)
    (hpub : j'.published = j.published) (hw : ∀ id, stage ≠ .write id)
    (ha : ∀ id size, stage ≠ .add id size)
    (hi : ∀ id, stage ≠ .install id) : Filed (w₁.flushTo j' stage) :=
  h.flushTo hj hf hn hc hfz hw (uses_of_published hpub hw ha) fun id hst => absurd hst (hi id)

/-- A cycle goes on without a new id. -/
theorem Filed.setCycle {c : Option Cycle} (h : Filed w) (hf : w₁.files = w.files)
    (hn : w₁.nextId = w.nextId) (hj : w₁.flush = w.flush)
    (hc : ∀ c' oldest id, c = some c' → c'.stage ≠ .allocated oldest id) :
    Filed (w₁.setCycle c) where
  nodup := hf ▸ h.nodup
  below := hf ▸ hn ▸ h.below
  usesBelow := hj ▸ hn ▸ h.usesBelow
  writing := hj ▸ hf ▸ h.writing
  own := hj ▸ hf ▸ h.own
  installing := hj ▸ h.installing
  allocated := fun c' oldest id hc' hst => absurd hst (hc c' oldest id hc')

/-- A flush that has just taken its id uses no other. -/
theorem uses_begun {n : Nat} (hp : j.published = none) (id : Nat)
    (hu : Uses { j with stage := .write n } id) : id = n := by
  rcases hu with hst | ⟨size, hst⟩ | hpub
  · exact (FlushStage.write.inj hst).symm
  · cases hst
  · rw [hp] at hpub
    cases hpub

theorem filed_flushBegin (h : Filed w)
    (hp : j.published = none) : Filed (w.takeId.flushTo j (.write w.nextId)) := by
  have huse := @uses_begun j w.nextId hp
  exact {
    nodup := h.nodup
    below := fun f hf => Nat.lt_succ_of_lt (h.below f hf)
    usesBelow := by
      intro k id hk hu
      cases hk
      obtain rfl := huse id hu
      exact Nat.lt_succ_self _
    writing := by
      intro k id hk hst f hf
      cases hk
      obtain rfl := huse id (.inl hst)
      exact Nat.ne_of_lt (h.below f hf)
    own := by
      intro k id hk hu f hf hid
      cases hk
      exact absurd (hid.trans (huse id hu)) (Nat.ne_of_lt (h.below f hf))
    installing := by
      intro k id hk hst
      cases hk
      cases hst
    allocated := by
      intro c oldest id hc hst
      obtain ⟨hlt, hfs, _⟩ := h.allocated c oldest id hc hst
      refine ⟨Nat.lt_succ_of_lt hlt, hfs, fun k i hk hu => ?_⟩
      cases hk
      obtain rfl := huse i hu
      exact (Nat.ne_of_lt hlt).symm }

theorem nodup_concat_file {files : List SstFile} {f : SstFile} (h : (files.map (·.table.id)).Nodup)
    (hf : ∀ g ∈ files, g.table.id ≠ f.table.id) : ((files ++ [f]).map (·.table.id)).Nodup := by
  rw [map_append]
  refine nodup_append.mpr ⟨h, nodup_singleton _, ?_⟩
  intro i hi k hk
  obtain ⟨g, hg, rfl⟩ := mem_map.mp hi
  obtain rfl := mem_singleton.mp hk
  exact hf g hg

theorem filed_flushWrite {size : UInt64} (h : Filed w) (hj : w.flush = some j)
    (hst : j.stage = .write id) :
    Filed ((w.addFile ⟨writeFromMemtable j.frozen.table id, size⟩).flushTo j (.add id size)) := by
  have huse : ∀ i, Uses { j with stage := .add id size } i → Uses j i := by
    rintro i (hs | ⟨size', hs⟩ | hpub)
    · cases hs
    · exact .inl ((FlushStage.add.inj hs).1 ▸ hst)
    · exact .inr (.inr hpub)
  exact {
    nodup := nodup_concat_file h.nodup (h.writing j id hj hst)
    below := forall_mem_concat h.below (h.usesBelow j id hj (.inl hst))
    usesBelow := by
      intro k i hk hu
      cases hk
      exact h.usesBelow j i hj (huse i hu)
    writing := by
      intro k i hk hs
      cases hk
      cases hs
    own := by
      intro k i hk hu f hf hid
      cases hk
      rcases mem_append.mp hf with hf | hf
      · exact h.own j i hj (huse i hu) f hf hid
      · cases mem_singleton.mp hf
        exact hid ▸ rfl
    installing := by
      intro k i hk hs
      cases hk
      cases hs
    allocated := by
      intro c oldest i hc hs
      obtain ⟨hlt, hfs, hus⟩ := h.allocated c oldest i hc hs
      refine ⟨hlt, forall_mem_concat hfs (hus j id hj (.inl hst)), fun k n hk hu => ?_⟩
      cases hk
      exact hus j n hj (huse n hu) }

theorem filed_compactAllocate (h : Filed w) :
    Filed (w.takeId.setCycle (some ⟨c.inputs, .allocated oldest w.nextId⟩)) :=
  { h with
    below := fun f hf => Nat.lt_succ_of_lt (h.below f hf)
    usesBelow := fun j id hj hu => Nat.lt_succ_of_lt (h.usesBelow j id hj hu)
    allocated := by
      intro c' oldest' id hc hst
      cases hc
      obtain ⟨_, rfl⟩ := CycleStage.allocated.inj hst
      exact ⟨Nat.lt_succ_self _, fun f hf => Nat.ne_of_lt (h.below f hf),
        fun j i hj hu => Nat.ne_of_lt (h.usesBelow j i hj hu)⟩ }

theorem filed_compactWrite {size : UInt64} (h : Filed w) (hc : w.cycle = some c)
    (hst : c.stage = .allocated oldest id) :
    Filed ((w.addFile ⟨mergeTable c.inputs oldest id, size⟩).setCycle
      (some ⟨c.inputs, .written (mergeTable c.inputs oldest id) size⟩)) := by
  obtain ⟨hlt, hfs, hus⟩ := h.allocated c oldest id hc hst
  exact { h with
    nodup := nodup_concat_file h.nodup hfs
    below := forall_mem_concat h.below hlt
    writing := fun j i hj hs => forall_mem_concat (h.writing j i hj hs) (hus j i hj (.inl hs)).symm
    own := fun j i hj hu =>
      forall_mem_concat (h.own j i hj hu) fun hid => absurd hid.symm (hus j i hj hu)
    allocated := by
      intro c' oldest' i hc' hs
      cases hc'
      cases hs }

/-- Nothing is running. -/
theorem filed_idle (hj : w.flush = none) (hc : w.cycle = none)
    (hnodup : (w.files.map (·.table.id)).Nodup) (hids : ∀ f ∈ w.files, f.table.id < w.nextId) :
    Filed w where
  nodup := hnodup
  below := hids
  usesBelow := by intro j id hj'; rw [hj] at hj'; cases hj'
  writing := by intro j id hj'; rw [hj] at hj'; cases hj'
  own := by intro j id hj'; rw [hj] at hj'; cases hj'
  installing := by intro j id hj'; rw [hj] at hj'; cases hj'
  allocated := by intro c oldest id hc'; rw [hc] at hc'; cases hc'

/-- **File ids stay apart** in every step. -/
theorem filed_step (h : Filed w) (hs : Step crc w a w') : Filed w' := by
  cases hs with
  | flushRecv hf hq =>
    -- a job just received has no id yet
    have huse : ∀ {f : FrozenTable} {ckpt id : Nat},
        ¬ Uses ⟨f, ckpt, .start, none, none, false⟩ id := by
      rintro f ckpt id (hst | ⟨size, hst⟩ | hp)
      · cases hst
      · cases hst
      · cases hp
    exact h.jobWithout rfl rfl rfl fun j id hj => by
      cases hj
      exact ⟨huse, nofun⟩
  | flushBegin _ _ hp => exact filed_flushBegin h hp
  | flushResume hj _ hp =>
    refine h.flushTo hj rfl rfl rfl rfl (by simp) (fun id hu => ?_) (fun id hst => ?_)
    · rcases hu with hst | ⟨size, hst⟩ | hpub
      · cases hst
      · cases hst
      · exact .inr (.inr hpub)
    · exact FlushStage.install.inj hst ▸ hp
  | flushWrite hj hst => exact filed_flushWrite h hj hst
  | flushAdd hj hst =>
    refine h.flushTo hj rfl rfl rfl rfl (by simp) (fun id hu => ?_) (fun id hs => ?_)
    · rcases hu with hs | ⟨size, hs⟩ | hpub
      · cases hs
      · cases hs
      · exact .inr (.inl ⟨_, Option.some.inj hpub ▸ hst⟩)
    · exact congrArg some (FlushStage.install.inj hs)
  | flushRotate hj =>
    refine h.flushOn hj rfl rfl rfl rfl rfl ?_ ?_ ?_ <;> intros <;> split <;> simp
  | flushPurge => exact h.jobWithout rfl rfl rfl nofun
  | flushAddFail hj | flushInstall hj | flushInstalled hj | flushInstallGone hj | flushMarker hj
  | flushAwait hj | flushCheckpointDone hj | flushCheckpoint hj | flushCheckpointFail hj
  | flushRetire hj | flushPurgeFail hj | flushFail hj =>
    exact h.flushOn hj rfl rfl rfl rfl rfl (by simp) (by simp) (by simp)
  | compactAllocate => exact filed_compactAllocate h
  | compactWrite hc hst => exact filed_compactWrite h hc hst
  | unlink =>
    exact { h with
      nodup := h.nodup.sublist (filter_sublist.map _)
      below := fun f hf => h.below f (mem_filter.mp hf).1
      writing := fun j id hj hst f hf => h.writing j id hj hst f (mem_filter.mp hf).1
      own := fun j id hj hu f hf => h.own j id hj hu f (mem_filter.mp hf).1
      allocated := by
        intro c oldest id hc hst
        obtain ⟨hlt, hfs, hus⟩ := h.allocated c oldest id hc hst
        exact ⟨hlt, fun f hf => hfs f (mem_filter.mp hf).1, hus⟩ }
  | compactSplice => exact { h with allocated := by intro c oldest id hc; cases hc }
  | compactCapture | compactSample | compactAdd | compactRemove =>
    refine h.setCycle rfl rfl rfl fun c' oldest id hc' hst => ?_
    cases hc'
    cases hst
  | compactAddFail | compactRemoveFail | compactAbort =>
    exact h.setCycle rfl rfl rfl (by simp)
  | @reopen n k lost w' _ _ _ hopen =>
    obtain ⟨m, r, ho⟩ :=
      openEngine_ok (h.nodup.sublist (filter_sublist.map _)) hopen
    -- opening keeps table files or leaves them out; it writes none
    have hsub : w'.files.Sublist (w.files.filter fun f => f.table.id ∉ lost) := by
      rw [show _ = _ from ho.files]
      exact filter_sublist
    exact filed_idle ho.idle.2.2.1 ho.idle.2.2.2.1
      (h.nodup.sublist ((hsub.trans filter_sublist).map _))
      fun f hf => ho.idsBelow.1 f (hsub.subset hf)
  | _ => exact { h with }

/-! ## Compaction cycles -/

/-- A cycle's inputs stay in the list until its splice, and its output is their merge. -/
structure Cycling (w : World) : Prop where
  inputs : ∀ c, w.cycle = some c → ∀ t ∈ c.inputs, t ∈ w.sstables
  output : ∀ c o, w.cycle = some c → cycleOutput c.stage = some o →
    ∃ oldest, o = mergeTable c.inputs oldest o.id

theorem cycling_none (hc : w.cycle = none) : Cycling w where
  inputs := by intro c hc'; rw [hc] at hc'; cases hc'
  output := by intro c o hc'; rw [hc] at hc'; cases hc'

theorem mem_splice {inputs : List SsTable} {output u : SsTable} :
    u ∈ (w.splice inputs output).sstables →
      u = output ∨ (u ∈ w.sstables ∧ ∀ t ∈ inputs, t.id ≠ u.id) := by
  intro hu
  have hrest : ∀ u ∈ w.sstables.filter (fun t => ¬ inputs.any (·.id = t.id)),
      u ∈ w.sstables ∧ ∀ t ∈ inputs, t.id ≠ u.id := by
    intro u hu
    obtain ⟨hm, hn⟩ := mem_filter.mp hu
    exact ⟨hm, by simpa using hn⟩
  simp only [World.splice] at hu
  split at hu
  · exact .inr (hrest u hu)
  · rcases mem_cons.mp hu with hu | hu
    · exact .inl hu
    · exact .inr (hrest u hu)

/-- A cycle goes on with its inputs. -/
theorem Cycling.setCycle {stage : CycleStage} (h : Cycling w) (hc : w.cycle = some c)
    (hs : w₁.sstables = w.sstables)
    (ho : ∀ o, cycleOutput stage = some o → ∃ oldest, o = mergeTable c.inputs oldest o.id) :
    Cycling (w₁.setCycle (some ⟨c.inputs, stage⟩)) where
  inputs := by
    intro c' hc' t ht
    cases hc'
    exact (congrArg (t ∈ ·) hs).mpr (h.inputs c hc t ht)
  output := by
    intro c' o hc' ho'
    cases hc'
    exact ho o ho'

theorem cycling_step (h : Cycling w) (hf : Filed w) (hs : Step crc w a w') : Cycling w' := by
  cases hs with
  | flushInstall =>
    exact { h with inputs := fun c hc t ht => mem_cons_of_mem _ (h.inputs c hc t ht) }
  | compactCapture =>
    exact {
      inputs := by
        intro c hc t ht
        cases hc
        exact ht
      output := by
        intro c o hc ho
        cases hc
        cases ho }
  | compactSample hc | compactAllocate hc => exact h.setCycle hc rfl (by simp [cycleOutput])
  | compactWrite hc =>
    exact h.setCycle hc rfl fun o ho => ⟨_, by cases ho; rfl⟩
  | compactAdd hc hst | compactRemove hc hst =>
    exact h.setCycle hc rfl fun o ho => h.output _ o hc (hst ▸ ho)
  | compactAddFail | compactRemoveFail | compactSplice | compactAbort => exact cycling_none rfl
  | reopen _ _ _ hopen =>
    obtain ⟨m, r, ho⟩ := openEngine_ok (hf.nodup.sublist (filter_sublist.map _)) hopen
    exact cycling_none ho.idle.2.2.2.1
  | _ => exact { h with }

/-- A merge of the inputs holds versions of the list. -/
theorem Cycling.mem_merge (h : Cycling w) (hc : w.cycle = some c)
    (he : e ∈ (mergeTable c.inputs oldest id).records) : ∃ t ∈ w.sstables, e ∈ t.records := by
  obtain ⟨t, ht, he⟩ := mem_inputRecords.mp (merge_subset he)
  exact ⟨t, h.inputs c hc t ht, he⟩

theorem Cycling.mem_output {o : SsTable} (h : Cycling w) (hc : w.cycle = some c)
    (ho : cycleOutput c.stage = some o) (he : e ∈ o.records) : ∃ t ∈ w.sstables, e ∈ t.records := by
  obtain ⟨oldest, hmerge⟩ := h.output c o hc ho
  rw [hmerge] at he
  exact h.mem_merge hc he

/-! ## Contents -/

/-- Every version the engine holds satisfies `P`. -/
structure Holds (P : Entry → Prop) (w : World) : Prop where
  active : ∀ e ∈ w.active.map, P e
  frozen : ∀ f ∈ unflushed w, ∀ e ∈ f.table.map, P e
  files : ∀ f ∈ w.files, ∀ e ∈ f.table.records, P e
  tables : ∀ t ∈ w.sstables, ∀ e ∈ t.records, P e

/-- Nothing the engine holds was not applied. -/
abbrev Sourced (w : World) : Prop := Holds (· ∈ appliedEntries w) w

section Holds

variable {P Q : Entry → Prop}

theorem holds_init (cfg : LsmConfig) : Holds P (World.init cfg) where
  active := by intro e he; cases he
  frozen := by intro f hf; cases hf
  files := by intro f hf; cases hf
  tables := by intro t ht; cases ht

theorem Holds.mono (h : Holds P w) (hpq : ∀ e, P e → Q e) : Holds Q w where
  active := fun e he => hpq e (h.active e he)
  frozen := fun f hf e he => hpq e (h.frozen f hf e he)
  files := fun f hf e he => hpq e (h.files f hf e he)
  tables := fun t ht e he => hpq e (h.tables t ht e he)

theorem Holds.applyRecord (h : Holds P w) (hr : ∀ e ∈ r.entries, P e) : Holds P (w.applyRecord r) :=
  { h with
    active := by
      intro e he
      rcases mem_applyWalOp he with he | he
      · exact hr e he
      · exact h.active e he }

theorem Holds.freeze (h : Holds P w) : Holds P w.freeze where
  active := by intro e he; cases he
  frozen := by
    rw [unflushed_freeze]
    exact forall_mem_cons.mpr ⟨h.active, h.frozen⟩
  files := h.files
  tables := h.tables

/-- The flush thread goes on with files and tables as they were. -/
theorem Holds.flushTo (h : Holds P w) (hj : w.flush = some j) (hq : w₁.queue = w.queue)
    (hfz : j'.frozen = j.frozen) (hact : w₁.active = w.active) (hf : w₁.files = w.files)
    (ht : w₁.sstables = w.sstables) : Holds P (w₁.flushTo j' stage) where
  active := fun e he => h.active e (hact ▸ he)
  frozen := by
    rw [unflushed_flushTo hj hq hfz]
    exact h.frozen
  files := fun f hf' => h.files f (hf ▸ hf')
  tables := fun t ht' => h.tables t (ht ▸ ht')

/-- **New versions come from applied records only.** -/
theorem holds_step (h : Holds P w) (hc : Cycling w) (hs : Step crc w a w')
    (hne : isReopen a = false)
    (hap : ∀ r ∈ w.pending, r ∈ w'.applied → ∀ e ∈ r.entries, P e) : Holds P w' := by
  cases hs with
  | applyRefused hr => exact h.applyRecord (hap _ hr (mem_applied_self w _))
  | applyFreeze hr => exact { (h.applyRecord (hap _ hr (mem_applied_self w _))).freeze with }
  | apply hr => exact { h.applyRecord (hap _ hr (mem_applied_self w _)) with }
  | flushRecv hfl hq =>
    exact { h with frozen := by rw [unflushed_recv hfl hq]; exact h.frozen }
  | @flushWrite j size id hj hst =>
    have hu : unflushed ((w.addFile ⟨writeFromMemtable j.frozen.table id, size⟩).flushTo j
        (.add id size)) = unflushed w := unflushed_flushTo hj rfl rfl
    exact { h with
      frozen := by rw [hu]; exact h.frozen
      files := forall_mem_concat h.files fun e he => h.frozen _ (job_mem_unflushed hj) e he }
  | @flushInstall j f id hj hst hmem hid hnew =>
    have hu : unflushed ((w.install f.table).flushTo j .rotate) = unflushed w :=
      unflushed_flushTo hj rfl rfl
    exact { h with
      frozen := by rw [hu]; exact h.frozen
      tables := forall_mem_cons.mpr ⟨h.files f hmem, h.tables⟩ }
  | flushPurge hj =>
    exact { h with
      frozen := fun f hf' =>
        h.frozen f (unflushed_purge hj ▸ mem_append_left _ hf') }
  | @compactWrite c oldest size id hc' hst =>
    exact { h with
      files := by
        refine forall_mem_concat h.files fun e he => ?_
        -- a merge makes no record up
        obtain ⟨t, ht, he⟩ := hc.mem_merge hc' he
        exact h.tables t ht e he }
  | @compactSplice c output hc' hst =>
    exact { h with
      tables := by
        intro t ht e he
        rcases mem_splice ht with rfl | ⟨ht, _⟩
        · obtain ⟨u, hu, he⟩ := hc.mem_output hc' (by rw [hst]; rfl) he
          exact h.tables u hu e he
        · exact h.tables t ht e he }
  | unlink => exact { h with files := fun f hf' => h.files f (mem_filter.mp hf').1 }
  | reopen => cases hne
  | flushBegin hj | flushResume hj | flushAdd hj | flushAddFail hj | flushInstalled hj
  | flushInstallGone hj | flushRotate hj | flushMarker hj | flushAwait hj | flushCheckpointDone hj
  | flushCheckpoint hj | flushCheckpointFail hj | flushRetire hj | flushPurgeFail hj
  | flushFail hj => exact h.flushTo hj rfl rfl rfl rfl rfl
  | _ => exact { h with }

end Holds

theorem appliedEntries_concat (h : w₁.applied = w.applied ++ [r]) :
    appliedEntries w₁ = appliedEntries w ++ r.entries := by
  simp [appliedEntries, h]

/-- Records stay applied. -/
theorem applied_step (hs : Step crc w a w') (hne : isReopen a = false) :
    ∀ r ∈ w.applied, r ∈ w'.applied := by
  intro r hr
  cases hs with
  | applyRefused | applyFreeze | apply | flushAwait => exact mem_append_left _ hr
  | reopen => cases hne
  | _ => exact hr

theorem sourced_step (h : Sourced w) (hc : Cycling w) (hs : Step crc w a w')
    (hne : isReopen a = false) : Sourced w' := by
  have hmono : ∀ e ∈ appliedEntries w, e ∈ appliedEntries w' := by
    intro e he
    obtain ⟨r, hr, he⟩ := mem_appliedEntries.mp he
    exact mem_appliedEntries.mpr ⟨r, applied_step hs hne r hr, he⟩
  exact holds_step (h.mono hmono) hc hs hne fun r _ hap e he =>
    mem_appliedEntries.mpr ⟨r, hap, he⟩

theorem Sourced.applyRecord (h : Sourced w) (r : WalRecord) : Sourced (w.applyRecord r) := by
  have hap : appliedEntries (w.applyRecord r) = appliedEntries w ++ r.entries :=
    appliedEntries_concat rfl
  rw [Sourced, hap]
  exact (h.mono fun e he => mem_append_left _ he).applyRecord fun e he =>
    mem_append_right _ he

/-! ## All of it -/

/-- What holds in every state of one life of the process. -/
structure Base (w : World) : Prop where
  numbered : Numbered w
  queued : Queued w
  filed : Filed w
  cycling : Cycling w
  sourced : Sourced w

theorem base_init (cfg : LsmConfig) : Base (World.init cfg) where
  numbered := numbered_init cfg
  queued := queued_init cfg
  filed := filed_idle rfl rfl nodup_nil nofun
  cycling := cycling_none rfl
  sourced := holds_init cfg

theorem base_step (h : Base w) (hs : Step crc w a w') (hne : isReopen a = false) : Base w' where
  numbered := numbered_step h.numbered hs hne
  queued := queued_step h.queued hs hne
  filed := filed_step h.filed hs
  cycling := cycling_step h.cycling h.filed hs
  sourced := sourced_step h.sourced h.cycling hs hne

/-- **Key and number identify a version** among those of logged records. -/
theorem coherent_logged {recs : List WalRecord} (h : Numbered w) (hlog : ∀ r ∈ recs, r ∈ w.log) :
    Coherent (recs.flatMap WalRecord.entries) := by
  intro e he e' he' hk hs
  obtain ⟨r, hr, he⟩ := mem_flatMap.mp he
  obtain ⟨r', hr', he'⟩ := mem_flatMap.mp he'
  have hseq : r.seq = r'.seq := by rw [← entries_seq he, ← entries_seq he', hs]
  obtain rfl := h.unique (hlog r hr) (hlog r' hr') hseq
  exact entries_unique he he' hk

theorem coherent_applied (h : Numbered w) : Coherent (appliedEntries w) :=
  coherent_logged h fun r hr => (h.applied r hr).1

/-- They fit a `u64`. -/
theorem logged_le_max (h : Numbered w) (hr : r ∈ w.log) (he : e ∈ r.entries) : e.seq ≤ u64Max := by
  have h1 := h.below r hr
  have h2 := h.fits
  have h3 := entries_seq he
  omega

theorem applied_le_max (h : Numbered w) (he : e ∈ appliedEntries w) : e.seq ≤ u64Max := by
  obtain ⟨r, hr, he⟩ := mem_appliedEntries.mp he
  exact logged_le_max h (h.applied r hr).1 he

/-- Applied versions lie at or below the durable mark. -/
theorem applied_le_durable (h : Numbered w) (he : e ∈ appliedEntries w) : e.seq ≤ w.durable := by
  obtain ⟨r, hr, he⟩ := mem_appliedEntries.mp he
  exact (entries_seq he).trans_le (h.applied r hr).2

end RubixDb.Proof
