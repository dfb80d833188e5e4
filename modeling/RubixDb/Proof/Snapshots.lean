import RubixDb.Proof.Reads

/-!
# Snapshots

`snapshot()` reads the durable mark and then registers it. Between the two steps the mark
is not in the registry, and a compaction that samples the registry there may drop
versions the snapshot will want (`SampleFits` rules that out). Registered snapshots are
safe: the sample is at or below every one of them (`Registered.oldest_le`), and a mark
read after the sample lies above everything the cycle merges.

The mark itself may cover records that are durable and not yet applied. When such a
record is applied later, reads at the snapshot change (`Undisturbed` rules that out).
-/

namespace RubixDb.Proof

open Lib List

variable {crc : Bytes → UInt32} {w w' : World} {a : Act} {s : Nat}

/-! ## The registry -/

variable {r : WalRecord} {key : Key}

/-- The registry counts the live handles. -/
structure Registered (w : World) : Prop where
  sorted : SortedBy (·.1) w.registry
  counts : ∀ p ∈ w.registry, p.2 = w.snapshots.count p.1
  live : ∀ s ∈ w.snapshots, ∃ p ∈ w.registry, p.1 = s

theorem registered_init (cfg : LsmConfig) : Registered (World.init cfg) where
  sorted := .nil
  counts := by intro p hp; cases hp
  live := by intro s hs; cases hs

/-- **The sampled floor is at or below every registered snapshot.** -/
theorem Registered.oldest_le (h : Registered w) (hs : s ∈ w.snapshots) :
    ∃ o, w.registry.oldest = some o ∧ o ≤ s := by
  obtain ⟨p, hp, rfl⟩ := h.live s hs
  have hsorted := h.sorted
  cases hreg : w.registry with
  | nil => rw [hreg] at hp; cases hp
  | cons q rest =>
    rw [hreg] at hp hsorted
    refine ⟨q.1, rfl, ?_⟩
    rcases mem_cons.mp hp with rfl | hp
    · exact Nat.le_refl _
    · exact Nat.le_of_lt ((pairwise_cons.mp hsorted).1 p hp)

theorem Registered.countOf_eq (h : Registered w) (s : Nat) :
    w.registry.countOf s = w.snapshots.count s := by
  unfold SnapshotRegistry.countOf
  cases hfind : w.registry.find? (·.1 = s) with
  | none =>
    refine (count_eq_zero.mpr fun hs => ?_).symm
    obtain ⟨p, hp, rfl⟩ := h.live s hs
    have := find?_eq_none.mp hfind p hp
    simp at this
  | some p =>
    have hkey : p.1 = s := by simpa using find?_some hfind
    rw [← hkey]
    exact h.counts p (mem_of_find?_eq_some hfind)

/-- An entry is written under the handle's number. -/
theorem Registered.insert {count : Nat} {handles : List Nat} (h : Registered w)
    (hcount : count = handles.count s)
    (hother : ∀ i, i ≠ s → handles.count i = w.snapshots.count i) :
    Registered { w with
      registry := insertBy (·.1) (s, count) w.registry
      snapshots := handles } where
  sorted := h.sorted.insertBy _
  counts := by
    intro p hp
    rcases (mem_insertBy h.sorted).mp hp with rfl | ⟨hp, hne⟩
    · exact hcount
    · exact (h.counts p hp).trans (hother p.1 hne).symm
  live := by
    intro i hi
    by_cases his : i = s
    · exact ⟨(s, count), (mem_insertBy h.sorted).mpr (.inl rfl), his.symm⟩
    · have hold : i ∈ w.snapshots := by
        rw [← count_pos_iff, ← hother i his]
        exact count_pos_iff.mpr hi
      obtain ⟨p, hp, rfl⟩ := h.live i hold
      exact ⟨p, (mem_insertBy h.sorted).mpr (.inr ⟨hp, his⟩), rfl⟩

theorem Registered.acquire (h : Registered w) (s : Nat) : Registered { w with
    registry := w.registry.acquire s
    snapshots := w.snapshots ++ [s] } := by
  refine h.insert ?_ fun i hi => ?_
  · rw [h.countOf_eq]
    simp
  · rw [count_append]
    simp [hi.symm]

theorem Registered.release (h : Registered w) (hs : s ∈ w.snapshots) : Registered { w with
    registry := w.registry.release s
    snapshots := w.snapshots.erase s } := by
  have hother : ∀ i, i ≠ s → (w.snapshots.erase s).count i = w.snapshots.count i :=
    fun i hi => count_erase_of_ne hi
  unfold SnapshotRegistry.release
  split
  · rename_i hnone
    obtain ⟨p, hp, rfl⟩ := h.live s hs
    have := find?_eq_none.mp hnone p hp
    simp at this
  · rename_i k count hfind
    have hmem := mem_of_find?_eq_some hfind
    obtain rfl : k = s := by simpa using find?_some hfind
    have hcount : count - 1 = (w.snapshots.erase k).count k := by
      rw [count_erase_self, ← h.counts _ hmem]
    split
    · -- the last handle: the entry goes
      rename_i hzero
      have hgone : k ∉ w.snapshots.erase k := count_eq_zero.mp (hcount.symm.trans hzero)
      exact {
        sorted := h.sorted.sublist filter_sublist
        counts := by
          intro p hp
          obtain ⟨hp, hne⟩ := mem_filter.mp hp
          exact (h.counts p hp).trans (hother p.1 (by simpa using hne)).symm
        live := by
          intro i hi
          have hne : i ≠ k := fun he => hgone (he ▸ hi)
          obtain ⟨p, hp, rfl⟩ := h.live i (mem_of_mem_erase hi)
          exact ⟨p, mem_filter.mpr ⟨hp, by simpa using hne⟩, rfl⟩ }
    · exact h.insert hcount hother

theorem registered_step (h : Registered w) (hs : Step crc w a w') (hne : isReopen a = false) :
    Registered w' := by
  cases hs with
  | @snapshotRegister seq hread =>
    have hacq := h.acquire seq
    exact { hacq with }
  | snapshotDrop hlive =>
    have hrel := h.release hlive
    exact { hrel with }
  | reopen => cases hne
  | _ => exact { h with }

/-! ## Reads at live snapshots -/

/-- The numbers at which reads have to stay right: those of snapshots, of calls that have
read their mark, and of a call that would read it now. -/
def watched (w : World) : List Nat := w.reading ++ w.snapshots ++ [w.durable]

/-- If the step samples the oldest snapshot, calls between their two steps lose nothing to
the floor. -/
def SampleFits (w : World) (a : Act) : Prop :=
  a = .compactSample → ∀ c ∈ w.cycle, ∀ s ∈ w.reading,
    FloorFits w.registry.oldest (inputRecords c.inputs) s

/-- The step applies and splices in order, as far as watched reads can tell. -/
def InOrderAt (w : World) (a : Act) : Prop := ∀ s ∈ watched w, ApplyAt s w a ∧ SpliceAt s w a

instance (w : World) (a : Act) : Decidable (SampleFits w a) :=
  inferInstanceAs (Decidable (_ → ∀ c ∈ w.cycle, ∀ s ∈ w.reading, _))

instance (w : World) (a : Act) : Decidable (InOrderAt w a) :=
  inferInstanceAs (Decidable (∀ s ∈ watched w, _ ∧ _))

/-- What is watched was watched before; only an fsync moves the mark, upwards. -/
theorem watched_step (hs : Step crc w a w') (hne : isReopen a = false) :
    ∀ s ∈ watched w', s ∈ watched w ∨ ∃ n, a = .fsync n ∧ s = max w.durable n := by
  intro s hmem
  cases hs with
  | @fsync n =>
    rcases mem_append.mp hmem with hmem | hmem
    · exact .inl (mem_append_left _ hmem)
    · exact .inr ⟨n, rfl, mem_singleton.mp hmem⟩
  | snapshotRead =>
    left
    simp only [watched, mem_append, mem_singleton] at hmem ⊢
    rcases hmem with ((hmem | rfl) | hmem) | rfl
    · exact .inl (.inl hmem)
    · exact .inr rfl
    · exact .inl (.inr hmem)
    · exact .inr rfl
  | @snapshotRegister seq hread =>
    left
    simp only [watched, mem_append, mem_singleton] at hmem ⊢
    rcases hmem with (hmem | hmem | rfl) | rfl
    · exact .inl (.inl (mem_of_mem_erase hmem))
    · exact .inl (.inr hmem)
    · exact .inl (.inl hread)
    · exact .inr rfl
  | snapshotDrop =>
    left
    simp only [watched, mem_append, mem_singleton] at hmem ⊢
    rcases hmem with (hmem | hmem) | rfl
    · exact .inl (.inl hmem)
    · exact .inl (.inr (mem_of_mem_erase hmem))
    · exact .inr rfl
  | reopen => cases hne
  | _ => exact .inl hmem

/-- What holds in every state of a run in which watched reads stay right. -/
structure Served (w : World) : Prop where
  base : Base w
  listed : Listed w
  registered : Registered w
  reads : ∀ s ∈ watched w, Readable s w ∧ Retains s w

theorem served_init (cfg : LsmConfig) : Served (World.init cfg) where
  base := base_init cfg
  listed := listed_init cfg
  registered := registered_init cfg
  reads := fun s _ => ⟨readable_init s cfg, retains_idle rfl⟩

/-- **A sample is safe for every watched read:** registered snapshots hold the floor down,
the mark is above everything merged, and calls between their steps are as required. -/
theorem Served.sample_fits (h : Served w) (hfits : SampleFits w a) (hs : s ∈ watched w) :
    a = .compactSample → ∀ c ∈ w.cycle, FloorFits w.registry.oldest (inputRecords c.inputs) s := by
  intro ha c hc
  rcases mem_append.mp hs with hs | hs
  · rcases mem_append.mp hs with hs | hs
    · exact hfits ha c hc s hs
    · obtain ⟨o, ho, hle⟩ := h.registered.oldest_le hs
      rw [ho]
      exact floorFits_of_le _ hle
  · rw [mem_singleton.mp hs]
    exact floorFits_of_top _ fun e he =>
      applied_le_durable h.base.numbered (inputs_applied h.base hc e he)

theorem served_step (h : Served w) (hs : Step crc w a w') (hne : isReopen a = false)
    (hord : InOrderAt w a) (hfits : SampleFits w a) : Served w' := by
  refine ⟨base_step h.base hs hne, listed_step h.listed h.base.filed hs hne,
    registered_step h.registered hs hne, fun s hmem => ?_⟩
  rcases watched_step hs hne s hmem with hmem | ⟨n, rfl, rfl⟩
  · obtain ⟨hread, hret⟩ := h.reads s hmem
    obtain ⟨hap, hsp⟩ := hord s hmem
    exact ⟨readable_step hread hret h.base h.listed hs hne hap hsp,
      retains_step hret hs hne (h.sample_fits hfits hmem)⟩
  · -- the mark moves up over everything applied
    obtain ⟨hread, hret⟩ := h.reads w.durable (mem_append_right _ (mem_singleton_self _))
    have htop : ∀ e ∈ appliedEntries w, e.seq ≤ w.durable :=
      fun e he => applied_le_durable h.base.numbered he
    have hread' := hread.mono h.base htop (Nat.le_max_left _ n)
    have hret' := hret.mono h.base htop (Nat.le_max_left _ n)
    have hap : ApplyAt (max w.durable n) w (.fsync n) := fun r _ ha => by cases ha
    have hsp : SpliceAt (max w.durable n) w (.fsync n) := fun ha => by cases ha
    exact ⟨readable_step hread' hret' h.base h.listed hs hne hap hsp,
      retains_step hret' hs hne fun ha => by cases ha⟩

/-- A run of one life of the process whose applies, splices and samples are in order. -/
def SnapshotRun (w : World) (a : Act) : Prop :=
  isReopen a = false ∧ InOrderAt w a ∧ SampleFits w a

instance (w : World) (a : Act) : Decidable (SnapshotRun w a) :=
  inferInstanceAs (Decidable (_ ∧ _ ∧ _))

/--
**A live snapshot reads the newest version it may see.** Whatever writers, the flush
thread, compaction cycles and other snapshots do, a read at a live snapshot stops at the
newest version applied so far at or below it.
-/
theorem snapshot_reads_newest {cfg : LsmConfig}
    (h : Reach (World.act crc) SnapshotRun (World.init cfg) w) :
    ∀ s ∈ w.snapshots, ∀ key, Answers (appliedEntries w) key s (w.lookup key s) := by
  have hserved : Served w := reach_invariant h (served_init cfg) fun hw hc hs =>
    served_step hw hs hc.1 hc.2.1 hc.2.2
  intro s hs key
  have hmem : s ∈ watched w := mem_append_left _ (mem_append_right _ hs)
  rw [(hserved.reads s hmem).1.lookup_eq_best hserved.base]
  exact answers_best _ _ _

/-- Two versions of a key in two tables, the second written after a snapshot has read its
mark; `early` and `late` are what happens before and after the cycle samples. -/
def sampledRun (early late : List Act) : List Act :=
  putRun 1 [107] [1] ++ publishRun ++ checkpointRun 2 ++ [.snapshotRead] ++
    putRun 3 [107] [2] ++ publishRun ++ checkpointRun 4 ++ [.compactCapture] ++ early ++
    [.compactSample] ++ late ++
    [.compactAllocate, .compactWrite 0, .compactAdd .none, .compactRemove .none,
      .compactRemove .none, .compactSplice]

/-- **A snapshot can lose its versions while it is being taken.** The cycle samples the
registry between the read of the mark and its registration. -/
theorem sample_between_loses_version :
    ∃ w, Reach (World.act crc32c) (fun w a => isReopen a = false ∧ InOrderAt w a)
        (World.init tinyConfig) w ∧
      2 ∈ w.snapshots ∧ ¬ Answers (appliedEntries w) [107] 2 (w.lookup [107] 2) :=
  exists_reach_of_run (sampledRun [] [.snapshotRegister 2]) (by decide +kernel)

/-- Registered before the sample, it keeps them. -/
theorem snapshot_reads_newest_registered :
    ∃ w : World, w.snapshots = [2] ∧ w.sstables.length = 1 ∧
      ∀ s ∈ w.snapshots, ∀ key, Answers (appliedEntries w) key s (w.lookup key s) := by
  obtain ⟨w, hreach, hsnap, hlen⟩ : ∃ w,
      Reach (World.act crc32c) SnapshotRun (World.init tinyConfig) w ∧
        w.snapshots = [2] ∧ w.sstables.length = 1 :=
    exists_reach_of_run (sampledRun [.snapshotRegister 2] []) (by decide +kernel)
  exact ⟨w, hsnap, hlen, snapshot_reads_newest hreach⟩

/-! ## Reads that stay the same -/

/-- The step is one of a writer. -/
def isWrite : Act → Bool
  | .append _ | .fsync _ | .rotateWal | .apply _ => true
  | _ => false

/-- If the step applies a record at or below `s`, its version of the key, if it has one, is
already hidden from reads at `s` by a newer one in the active MemTable. -/
def Undisturbed (key : Key) (s : Nat) (w : World) (a : Act) : Prop :=
  ∀ r ∈ w.pending, a = .apply r.seq → r.seq ≤ s → ∀ e ∈ r.entries, e.key = key →
    ∃ v ∈ w.active.map, Visible key s v ∧ r.seq < v.seq

instance (key : Key) (s : Nat) (w : World) (a : Act) : Decidable (Undisturbed key s w a) :=
  inferInstanceAs (Decidable (∀ r ∈ w.pending, _ → _ → ∀ e ∈ r.entries, _ →
    ∃ v ∈ w.active.map, _ ∧ _))

/-- A record whose version of the key is hidden does not change what the MemTable says. -/
theorem best_applyWalOp {m : MemTable}
    (h : r.seq ≤ s → ∀ e ∈ r.entries, e.key = key → ∃ v ∈ m.map, Visible key s v ∧ r.seq < v.seq) :
    best (applyWalOp m r.seq r.op).map key s = best m.map key s := by
  have hcoh := (applyWalOp m r.seq r.op).coherent
  by_cases hhit : r.seq ≤ s ∧ ∃ e ∈ r.entries, e.key = key
  · obtain ⟨hle, e, he, hk⟩ := hhit
    obtain ⟨v, hv, hvis, hlt⟩ := h hle e he hk
    obtain ⟨b, hb⟩ := best_isSome_of_mem hv hvis
    obtain ⟨hbm, hbvis, hmax⟩ := isBest_of_best hb
    have hvb := hmax v hv hvis
    rw [hb]
    refine best_eq_of_isBest hcoh ⟨applyWalOp_keeps hbm (by omega), hbvis, fun x hx hxvis => ?_⟩
    rcases mem_applyWalOp hx with hx | hx
    · have := entries_seq hx
      omega
    · exact hmax x hx hxvis
  · -- the record has nothing that a read of the key at `s` sees
    have hmiss : ∀ e ∈ r.entries, ¬ Visible key s e := fun e he hvis =>
      hhit ⟨entries_seq he ▸ hvis.2, e, he, hvis.1⟩
    refine (best_congr hcoh fun e hvis => ⟨fun hin => ?_, fun hin => ?_⟩).symm
    · refine (applyWalOp_keeps_or hin).resolve_right ?_
      rintro ⟨e', he', hk, hs⟩
      exact hmiss e' he' ⟨hk.trans hvis.1, hs.trans_le hvis.2⟩
    · exact (mem_applyWalOp hin).resolve_left fun he => hmiss e he hvis

theorem lookup_applyRecord (h : r.seq ≤ s → ∀ e ∈ r.entries, e.key = key →
      ∃ v ∈ w.active.map, Visible key s v ∧ r.seq < v.seq) :
    (w.applyRecord r).lookup key s = w.lookup key s := by
  have hactive : (w.applyRecord r).active.getAsOf key s = w.active.getAsOf key s := by
    rw [MemTable.getAsOf_eq_best, MemTable.getAsOf_eq_best]
    exact best_applyWalOp h
  show Option.or ((w.applyRecord r).active.getAsOf key s) _ = _
  rw [hactive]
  rfl

/-- Freezing moves the active MemTable to the front of the immutables. -/
theorem lookup_freeze (w : World) (key : Key) (s : Nat) :
    w.freeze.lookup key s = w.lookup key s := by
  unfold World.lookup World.freeze
  have hnew : (MemTable.new w.cfg.memtableMaxSizeBytes).getAsOf key s = none := rfl
  rw [hnew, findSome?_cons]
  cases w.active.getAsOf key s <;> simp

theorem lookup_write (hs : Step crc w a w') (hw : isWrite a = true)
    (hu : Undisturbed key s w a) : w'.lookup key s = w.lookup key s := by
  cases hs with
  | append | fsync | rotateWal => rfl
  | applyRefused hr => exact lookup_applyRecord (hu _ hr rfl)
  | apply hr => exact lookup_applyRecord (hu _ hr rfl)
  | @applyFreeze r hr =>
    exact (lookup_freeze (w.applyRecord r) key s).trans (lookup_applyRecord (hu r hr rfl))
  | _ => cases hw

/--
**Reads at a number stay the same while writers go on.** From any state, snapshots live or
not, and through any steps of writers, a read of the key at `s` returns the same as long
as no record at or below `s` brings a version of it that is not hidden already.
-/
theorem snapshot_read_stable {w₁ w₂ : World} {key : Key}
    (h : Reach (World.act crc) (fun w a => isWrite a = true ∧ Undisturbed key s w a) w₁ w₂) :
    w₂.getAsOf key s = w₁.getAsOf key s := by
  have hlookup : w₂.lookup key s = w₁.lookup key s :=
    reach_invariant (P := fun w => w.lookup key s = w₁.lookup key s) h rfl
      fun heq hc hs => (lookup_write hs hc.1 hc.2).trans heq
  unfold World.getAsOf
  rw [hlookup]

/-- A snapshot is taken while `key` is logged and durable, and not yet applied. -/
def unappliedRun (key : Bytes) : List Act :=
  [.append (.put key [1]), .fsync 1, .snapshotRead, .snapshotRegister 1]

/-- **A snapshot's reads can change.** Its mark covers a record that is applied after the
first read. -/
theorem late_apply_changes_snapshot :
    ∃ w₁, Reach (World.act crc32c) (fun _ _ => True) (World.init tinyConfig) w₁ ∧
      1 ∈ w₁.snapshots ∧
      ∃ w₂, Reach (World.act crc32c) (fun _ a => isWrite a = true) w₁ w₂ ∧
        w₂.getAsOf [107] 1 ≠ w₁.getAsOf [107] 1 := by
  obtain ⟨w₁, hreach, hsnap, hw⟩ : ∃ w₁,
      Reach (World.act crc32c) (fun _ _ => True) (World.init tinyConfig) w₁ ∧ 1 ∈ w₁.snapshots ∧
        (run (World.act crc32c) (fun _ a => isWrite a = true) w₁ [.apply 1]).any (fun w₂ =>
          w₂.getAsOf [107] 1 ≠ w₁.getAsOf [107] 1) = true :=
    exists_reach_of_run (unappliedRun [107]) (by decide +kernel)
  exact ⟨w₁, hreach, hsnap, exists_reach_of_run [.apply 1] hw⟩

/-- A record at the snapshot with another key, and one above it, leave the read alone. -/
theorem snapshot_read_stable_other_key :
    ∃ w₁ w₂ : World, 1 ∈ w₁.snapshots ∧ w₂.applied.length = 2 ∧
      w₂.getAsOf [107] 1 = w₁.getAsOf [107] 1 := by
  obtain ⟨w₁, _, hsnap, hw⟩ : ∃ w₁,
      Reach (World.act crc32c) (fun _ _ => True) (World.init tinyConfig) w₁ ∧ 1 ∈ w₁.snapshots ∧
        (run (World.act crc32c) (fun w a => isWrite a = true ∧ Undisturbed [107] 1 w a) w₁
          ([.apply 1] ++ putRun 2 [107] [2])).any (fun w₂ => w₂.applied.length = 2) = true :=
    exists_reach_of_run (unappliedRun [108]) (by decide +kernel)
  obtain ⟨w₂, hreach, hlen⟩ := exists_reach_of_run _ hw
  exact ⟨w₁, w₂, hsnap, hlen, snapshot_read_stable hreach⟩

end RubixDb.Proof
