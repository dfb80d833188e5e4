import RubixDb.Proof.IdOrder
import RubixDb.Proof.Reads

/-!
# Live reads and recovery agree

A live read finds the newest applied version because MemTables stay in order. An engine
that opens the same WAL and tables sees them in another arrangement: what lies above the
checkpoint is back in one MemTable, whatever tables it has reached since, and the tables
stand in id order. It reads the same, since nothing above the checkpoint was purged
(`Found.top`), ids are taken in the order of the freezes (`IdOrdered`) and everything at
or below the checkpoint is in recorded tables (`Found.held_iff`).

Both fail for the same reason: writers apply in any order, and one that is late may put
an older version in front of a newer one that is frozen already.
-/

namespace RubixDb.Proof

open Lib List

variable {crc : Bytes → UInt32} {w w' w₁ : World} {a : Act} {n k : Nat} {lost : List Nat}
  {segs : List WalSegment} {es fs ds es₁ : List ManifestEdit} {m : Manifest}
  {r : ManifestReplayResult} {recs : List WalRecord}

/-- `recs` are the records the directory still stands for: what the segments hold, and
what lies at or below the checkpoint. -/
structure Accounts (w : World) (segs : List WalSegment) (ckpt : Nat) (recs : List WalRecord) :
    Prop where
  sorted : SortedBy (·.seq) (segmentRecords segs)
  replayed : ∀ rec ∈ segmentRecords segs, rec ∈ recs
  logged : ∀ rec ∈ recs, rec ∈ w.log
  above : ∀ rec ∈ recs, ckpt < rec.seq → rec ∈ segmentRecords segs
  files : ∀ f ∈ w.files, ∀ e ∈ f.table.records, e ∈ recs.flatMap WalRecord.entries

section

variable (hd : Found crc w w₁ n segs lost es ds es₁ m r)
include hd

/-- **The replayed MemTable is on top,** for reads at any number: what is newer than the
checkpoint was replayed into it. -/
theorem Found.top (ha : Accounts w segs r.state.checkpointSeq recs) (s : Nat) :
    NewerAt s w₁.active.map (recs.flatMap WalRecord.entries) := by
  rintro e he hes ⟨v, hv, hvis⟩
  obtain ⟨rec, hrec, he⟩ := mem_flatMap.mp he
  rw [hd.opened.active] at hv ⊢
  by_cases hc : rec.seq ≤ r.state.checkpointSeq
  · refine ⟨v, hv, hvis, ?_⟩
    rcases mem_replayWal hv with hv | ⟨rec', _, hlt, hv⟩
    · cases hv
    · have h1 := entries_seq he
      have h2 := entries_seq hv
      omega
  · have hin := ha.above rec hrec (by omega)
    exact ⟨e, entries_mem_replayWal ha.sorted hin (by omega) he, ⟨rfl, hes⟩, Nat.le_refl _⟩

/-- The rebuilt list is in order for reads at the top. -/
theorem Found.tables_newer (hid : IdOrdered w)
    (hf : Filed w) (hgar : w.garbage = []) : (w₁.sstables.map (·.records)).Pairwise Newer := by
  rw [hd.opened.sstables]
  refine (rebuilt_newer hid (hf.nodup.sublist (filter_sublist.map _))
    (fun f hf => (mem_filter.mp hf).1) fun f _ _ => ?_).1
  rw [hgar]
  exact not_mem_nil

/-- **The opened engine holds exactly the versions of those records.** -/
theorem Found.held_iff
    (ha : Accounts w segs r.state.checkpointSeq recs) (h : Chained crc w es fs ds) (hb : Base w)
    {e : Entry} : e ∈ heldEntries w₁ ↔ e ∈ recs.flatMap WalRecord.entries := by
  obtain ⟨himm, _⟩ := hd.opened.idle
  rw [mem_heldEntries, himm]
  constructor
  · rintro (he | ⟨f, hf, _⟩ | he)
    · rw [hd.opened.active] at he
      rcases mem_replayWal he with he | ⟨rec, hrec, _, he⟩
      · cases he
      · exact mem_flatMap.mpr ⟨rec, ha.replayed rec hrec, he⟩
    · cases hf
    · obtain ⟨t, ht, he⟩ := mem_inputRecords.mp he
      obtain ⟨f, hf, rfl⟩ := (hd.mem_sstables hb.filed).mp ht
      exact ha.files f (hd.files_subset hf) e he
  · intro he
    obtain ⟨rec, hrec, he⟩ := mem_flatMap.mp he
    by_cases hc : rec.seq ≤ r.state.checkpointSeq
    · obtain ⟨f, hf, hid, he⟩ := hd.upto h hb.numbered rec (ha.logged rec hrec) hc e he
      have hkept := hd.file_kept h hb.filed hf hid
      exact .inr (.inr (mem_inputRecords.mpr
        ⟨f.table, (hd.mem_sstables hb.filed).mpr ⟨f, hkept, rfl⟩, he⟩))
    · rw [hd.opened.active]
      exact .inl (entries_mem_replayWal ha.sorted (ha.above rec hrec (by omega)) (by omega) he)

/-- Tables in order for reads at the top. -/
theorem Found.tables_newerAt (hid : IdOrdered w)
    (ha : Accounts w segs r.state.checkpointSeq recs) (hb : Base w) (hgar : w.garbage = []) :
    (w₁.sstables.map (·.records)).Pairwise (NewerAt u64Max) := by
  refine (hd.tables_newer hid hb.filed hgar).imp_of_mem fun {t u} ht _ hnew => hnew.newerAt ?_
  obtain ⟨table, htable, rfl⟩ := mem_map.mp ht
  obtain ⟨f, hf, rfl⟩ := (hd.mem_sstables hb.filed).mp htable
  intro e he
  obtain ⟨rec, hrec, he⟩ := mem_flatMap.mp (ha.files f (hd.files_subset hf) e he)
  exact logged_le_max hb.numbered (ha.logged rec hrec) he

/-- **An opened engine reads the newest version** of the records it stands for. -/
theorem Found.lookup_eq_best (hid : IdOrdered w)
    (ha : Accounts w segs r.state.checkpointSeq recs) (h : Chained crc w es fs ds) (hb : Base w)
    (key : Key) : w₁.lookup key u64Max = best (recs.flatMap WalRecord.entries) key u64Max := by
  have hheld : ∀ e, e ∈ heldEntries w₁ ↔ e ∈ recs.flatMap WalRecord.entries :=
    fun e => hd.held_iff ha h hb
  have hord : w₁.sources.Pairwise (NewerAt u64Max) := by
    obtain ⟨himm, _⟩ := hd.opened.idle
    have hsrc : w₁.sources = w₁.active.map :: w₁.sstables.map (·.records) := by
      simp [World.sources, himm]
    rw [hsrc]
    refine pairwise_cons.mpr ⟨fun u hu => ?_, hd.tables_newerAt hid ha hb h.idle.2⟩
    refine (newerAt_order _).subset_right (hd.top ha u64Max) fun e he => (hheld e).mp ?_
    obtain ⟨t, ht, rfl⟩ := mem_map.mp hu
    exact mem_heldEntries.mpr (.inr (.inr (mem_inputRecords.mpr ⟨t, ht, he⟩)))
  exact lookup_eq_best_of hord (coherent_logged hb.numbered ha.logged) (fun e => (hheld e).mp)
    (covers_of_subset fun e => (hheld e).mpr) key

end

/-! ## The invariants again -/

/-- After a stop, everything left of the log counts as applied. -/
theorem accounts_cut (hd : Replayed crc w n es ds es₁ m r) (h : Chained crc w es fs ds)
    (hb : Base w) (hseg : Segmented w) (hk : w.durable ≤ k) :
    Accounts w (w.cutSegments k) r.state.checkpointSeq (w.log.filter (·.seq ≤ k)) where
  sorted := sorted_cut hb.numbered hseg k
  replayed := by
    rw [segmentRecords_cut]
    exact fun rec hrec => (hseg.records.filter _).subset hrec
  logged := fun rec hrec => (mem_filter.mp hrec).1
  above := by
    intro rec hrec hlt
    obtain ⟨hlog, hle⟩ := mem_filter.mp hrec
    exact (hd.replayed_or_covered h hlog (by simpa using hle)).resolve_right (by omega)
  files := by
    intro f hf e he
    show e ∈ appliedEntries (reopened w w k)
    exact applied_kept hb.numbered hk (hb.sourced.files f hf e he)

theorem Found.listed (hd : Found crc w w₁ n segs lost es ds es₁ m r) (hf : Filed w) :
    Listed (reopened w w₁ k) := by
  obtain ⟨_, _, hfl, hcyc, _⟩ := hd.opened.idle
  have hkept : ((keptFiles r.state (w.files.filter fun f => f.table.id ∉ lost)).map
      (·.table.id)).Nodup :=
    hf.nodup.sublist ((filter_sublist.trans filter_sublist).map _)
  exact {
    nodup := by
      show (w₁.sstables.map (·.id)).Nodup
      rw [hd.opened.sstables, map_reverse, nodup_reverse]
      exact pairwise_map.mpr ((insertTables_spec hkept .nil (by simp)).1.imp Nat.ne_of_lt)
    below := by
      intro t ht
      obtain ⟨f, hmem, rfl⟩ := (hd.mem_sstables hf).mp ht
      rw [hd.opened.files] at hmem
      exact hd.opened.idsBelow.1 f (mem_filter.mp hmem).1
    own := by
      intro j id hj
      have hnone : (reopened w w₁ k).flush = none := hfl
      rw [hnone] at hj
      cases hj
    output := by
      intro c id hc
      have hnone : (reopened w w₁ k).cycle = none := hcyc
      rw [hnone] at hc
      cases hc }

theorem Found.idOrdered (hd : Found crc w w₁ n segs lost es ds es₁ m r) (hid : IdOrdered w)
    (hgar : w.garbage = []) : IdOrdered (reopened w w₁ k) := by
  obtain ⟨_, hq, hfl, hcyc, _⟩ := hd.opened.idle
  have hflush : (reopened w w₁ k).flush = none := hfl
  have hcycle : (reopened w w₁ k).cycle = none := hcyc
  have hun : unflushed (reopened w w₁ k) = [] := hd.unflushed_eq
  have hused : ∀ f : SstFile, f.table.id ∉ w.garbage := fun f => by rw [hgar]; simp
  exact {
    frozen := by
      unfold diskSources
      rw [hun]
      exact pairwise_singleton _ _
    files := fun f hf g hg _ _ =>
      hid.files f (hd.files_subset hf) g (hd.files_subset hg) (hused f) (hused g)
    writing := by intro j id hj; rw [hflush] at hj; cases hj
    output := by intro c oldest id hc; rw [hcycle] at hc; cases hc
    outputJob := by intro c oldest id j i hc; rw [hcycle] at hc; cases hc }

/-- **Opening puts the sources back in order.** -/
theorem Found.readable (hd : Found crc w w₁ n (w.cutSegments k) lost es ds es₁ m r)
    (hid : IdOrdered w) (h : Chained crc w es fs ds) (hb : Base w) (hseg : Segmented w)
    (hk : w.durable ≤ k) : Readable u64Max (reopened w w₁ k) := by
  have ha := accounts_cut hd.toReplayed h hb hseg hk
  obtain ⟨_, hq, hfl, _⟩ := hd.opened.idle
  have hsrc : frozenSources (reopened w w₁ k) = w₁.sstables.map (·.records) := by
    simp [frozenSources, unflushed, reopened, hq, hfl]
  exact {
    top := hd.top ha u64Max
    ordered := by
      unfold Ordered
      rw [hsrc]
      exact hd.tables_newerAt hid ha hb h.idle.2
    kept := covers_of_subset fun e he => (hd.held_iff ha h hb).mpr he
    installed := by
      intro j hj
      have hnone : (reopened w w₁ k).flush = none := hfl
      rw [hnone] at hj
      cases hj }

/-- What holds in every state of a run that applies in order, stops included. -/
structure Agreed (crc : Bytes → UInt32) (w : World) : Prop where
  durable : Durable crc w
  listed : Listed w
  idOrdered : IdOrdered w
  readable : Readable u64Max w

theorem agreed_init (cfg : LsmConfig) : Agreed crc (World.init cfg) where
  durable := durable_init cfg
  listed := listed_init cfg
  idOrdered := idOrdered_init cfg
  readable := readable_init _ cfg

/-- The newest applied version of each of its keys is in a MemTable that is frozen. -/
theorem Readable.freezeNewer (h : Readable u64Max w) (hb : Base w) (hap : ApplyAt u64Max w a) :
    FreezeNewer w a := by
  intro r hr ha hfull hroom
  have hnew := top_applyRecord h.top hb hr (ha ▸ hap)
  have hmax : ∀ e ∈ appliedEntries (w.applyRecord r), e.seq ≤ u64Max := by
    intro e he
    rw [appliedEntries_concat (r := r) rfl] at he
    rcases mem_append.mp he with he | he
    · exact applied_le_max hb.numbered he
    · exact logged_le_max hb.numbered (hb.numbered.pending r hr).1 he
  exact hnew.newer (fun e he => hmax e ((hb.sourced.applyRecord r).active e he)) hmax

theorem agreed_step (h : Agreed crc w) (hs : Step crc w a w') (hrun : FlushingRun w a)
    (hap : ApplyAt u64Max w a) : Agreed crc w' := by
  have hb := h.durable.base
  obtain ⟨es, fs, ds, hc⟩ := h.durable.chained
  have hd' := durable_step h.durable hs hrun.1 hrun.2
  by_cases hne : isReopen a = false
  · have halloc : AllocateNewest w a := fun ha => by
      subst ha
      cases hrun.1
    have hsp : SpliceAt u64Max w a := fun ha => by
      subst ha
      cases hrun.1
    exact {
      durable := hd'
      listed := listed_step h.listed hb.filed hs hne
      idOrdered := idOrdered_step h.idOrdered hb hs hne (h.readable.freezeNewer hb hap) halloc
      readable := readable_step h.readable (retains_idle hc.idle.1) hb h.listed hs hne hap hsp }
  · cases hs with
    | @reopen n k lost w₁ hn _ hk hopen =>
      obtain ⟨es₁, m, r, hrep⟩ := hc.replayed hn
      have hd := hrep.found hb.filed hopen
      exact {
        durable := hd'
        listed := hd.listed hb.filed
        idOrdered := hd.idOrdered h.idOrdered hc.idle.2
        readable := hd.readable h.idOrdered hc hb h.durable.segmented hk }
    | _ => exact absurd rfl hne

/-- A run as in checkpoint safety in which no record is applied after a freeze has put a
newer version of one of its keys behind. -/
def InOrderRun (w : World) (a : Act) : Prop := FlushingRun w a ∧ ApplyAt u64Max w a

instance (w : World) (a : Act) : Decidable (InOrderRun w a) :=
  inferInstanceAs (Decidable (_ ∧ _))

/--
**`get` returns the newest applied version, and so does a recovered engine.** In every
state of a run that applies in order, a read stops at the newest version applied so far;
and an engine opened on the applied records of the WAL, on the tables, and on the
manifest as a crash may leave it, reads the same value of every key.
-/
theorem get_newest_applied {cfg : LsmConfig}
    (h : Reach (World.act crc) InOrderRun (World.init cfg) w) (hn : w.manifest.synced ≤ n) :
    (∀ key, Answers (appliedEntries w) key u64Max (w.lookup key u64Max)) ∧
      ∃ m r, Manifest.openFile crc (w.manifest.file.take n) w.manifest.synced = .ok (m, r) ∧
        ∀ (lost : List Nat) (segs : List WalSegment), (∀ id ∈ lost, r.state.isLive id = false) →
          segmentRecords segs = (segmentRecords (segments w)).filter (· ∈ w.applied) →
          ∃ w₁, openEngine crc w.cfg segs (w.manifest.file.take n) w.manifest.synced
              (w.files.filter fun f => f.table.id ∉ lost) = .ok w₁ ∧
            ∀ key, w₁.get key = w.get key := by
  obtain ⟨⟨hb, hseg, _, es, fs, ds, hc⟩, _, hid, hread⟩ : Agreed crc w :=
    reach_invariant h (agreed_init cfg) fun hw hrun hs => agreed_step hw hs hrun.1 hrun.2
  have hlive : ∀ key, w.lookup key u64Max = best (appliedEntries w) key u64Max :=
    hread.lookup_eq_best hb
  refine ⟨fun key => hlive key ▸ answers_best _ _ _, ?_⟩
  obtain ⟨es₁, m, r, hrep⟩ := hc.replayed hn
  refine ⟨m, r, hrep.file, fun lost segs hlost hsegs => ?_⟩
  -- the log that is left and the tables account for all that was applied
  have ha : Accounts w segs r.state.checkpointSeq w.applied := {
    sorted := by
      rw [hsegs]
      exact (hb.numbered.sorted.sublist hseg.records).sublist filter_sublist
    replayed := by
      rw [hsegs]
      exact fun rec hrec => by simpa using (mem_filter.mp hrec).2
    logged := fun rec hrec => (hb.numbered.applied rec hrec).1
    above := by
      intro rec hrec hlt
      rw [hsegs]
      exact mem_filter.mpr
        ⟨hrep.in_wal hc (hb.numbered.applied rec hrec).1 hlt, by simpa using hrec⟩
    files := hb.sourced.files }
  obtain ⟨w₁, hopen⟩ := hrep.returns hc hb.filed segs hlost
  have hd := hrep.found hb.filed hopen
  refine ⟨w₁, hopen, fun key => ?_⟩
  unfold World.get World.getAsOf
  rw [hlive, hd.lookup_eq_best hid ha hc hb]
  rfl

/-! ## Two runs -/

/-- Two versions of a key are logged; the newer one is applied and frozen before the older
one is applied. -/
def lateApplyRun (key : Bytes) : List Act :=
  [.append (.put [107] [1]), .append (.put key [2]), .fsync 2, .apply 2, .apply 1]

/-- **A late apply hides the newest version,** and a recovered engine reads another value. -/
theorem late_apply_hides_newest :
    ∃ w, Reach (World.act crc32c) FlushingRun (World.init tinyConfig) w ∧
      ¬ Answers (appliedEntries w) [107] u64Max (w.lookup [107] u64Max) ∧
      ∃ w₁, openEngine crc32c w.cfg (segments w) w.manifest.file w.manifest.synced w.files =
          .ok w₁ ∧ w₁.get [107] ≠ w.get [107] := by
  obtain ⟨w, hreach, hbad, hw⟩ : ∃ w,
      Reach (World.act crc32c) FlushingRun (World.init tinyConfig) w ∧
      ¬ Answers (appliedEntries w) [107] u64Max (w.lookup [107] u64Max) ∧
      (openEngine crc32c w.cfg (segments w) w.manifest.file w.manifest.synced
        w.files).toOption.any (fun w₁ => w₁.get [107] ≠ w.get [107]) = true :=
    exists_reach_of_run (lateApplyRun [107]) (by decide +kernel)
  exact ⟨w, hreach, hbad, exists_ok hw⟩

/-- With two keys the same order does no harm. -/
theorem get_newest_applied_other_key :
    ∃ w : World, w.applied.length = 2 ∧
      (∀ key, Answers (appliedEntries w) key u64Max (w.lookup key u64Max)) ∧
      ∃ m r, Manifest.openFile crc32c (w.manifest.file.take w.manifest.synced)
          w.manifest.synced = .ok (m, r) ∧
        ∀ (lost : List Nat) (segs : List WalSegment), (∀ id ∈ lost, r.state.isLive id = false) →
          segmentRecords segs = (segmentRecords (segments w)).filter (· ∈ w.applied) →
          ∃ w₁, openEngine crc32c w.cfg segs (w.manifest.file.take w.manifest.synced)
              w.manifest.synced (w.files.filter fun f => f.table.id ∉ lost) = .ok w₁ ∧
            ∀ key, w₁.get key = w.get key := by
  obtain ⟨w, hreach, hlen⟩ : ∃ w, Reach (World.act crc32c) InOrderRun (World.init tinyConfig) w ∧
      w.applied.length = 2 := exists_reach_of_run (lateApplyRun [108]) (by decide +kernel)
  exact ⟨w, hlen, get_newest_applied hreach (Nat.le_refl _)⟩

end RubixDb.Proof
