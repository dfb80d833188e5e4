import RubixDb.Proof.Ledger

/-!
# The id order is the recency order

Opening the engine forgets the live list and rebuilds it from the table files in
descending id order. A flush takes its id before it writes and its MemTable is newer than
everything written before, so among flushed tables the order is right. A compaction takes
its id after it has captured its inputs: a table flushed in between has the lower id and
the newer versions, and the output hides them after a restart.

`IdOrdered` is the invariant of the runs in which that does not happen, because at the
moment an output takes its id nothing newer than its inputs shares a key with them
(`AllocateNewest`).
-/

namespace RubixDb.Proof

open Lib List

variable {crc : Bytes → UInt32} {w w' : World} {a : Act} {j : FlushJob} {w₁ : World} {id : Nat}
    {size : UInt64} {c : Cycle} {oldest : Option Nat} {st : ManifestState}

/-- A MemTable that is frozen holds, of each of its keys, the newest version applied so
far. -/
def FreezeNewer (w : World) (a : Act) : Prop := FreezeIn Newer w a

/-- The flush thread has taken an id and not yet written under it. -/
def isWriting : FlushStage → Bool
  | .write _ => true
  | _ => false

/-- When a cycle takes the id of its output, no table on disk that is still in use, nor one
about to be written under an id taken earlier, holds a newer version of a key of the
inputs. -/
def AllocateNewest (w : World) (a : Act) : Prop :=
  a = .compactAllocate → ∀ c ∈ w.cycle,
    (∀ f ∈ w.files, f.table.id ∉ w.garbage → Newer (inputRecords c.inputs) f.table.records) ∧
    ∀ j ∈ w.flush, isWriting j.stage = true →
      Newer (inputRecords c.inputs) j.frozen.table.map

instance (w : World) (a : Act) : Decidable (FreezeNewer w a) :=
  inferInstanceAs (Decidable (FreezeIn Newer w a))

instance (w : World) (a : Act) : Decidable (AllocateNewest w a) :=
  inferInstanceAs (Decidable (_ → ∀ c ∈ w.cycle, (∀ f ∈ w.files, _ → _) ∧ ∀ j ∈ w.flush, _ → _))

/-- Every version on disk or in the list. -/
def heldRecords (w : World) : List Entry := inputRecords (w.files.map (·.table) ++ w.sstables)

theorem mem_heldRecords {e : Entry} : e ∈ heldRecords w ↔
    (∃ f ∈ w.files, e ∈ f.table.records) ∨ ∃ t ∈ w.sstables, e ∈ t.records := by
  unfold heldRecords
  rw [mem_inputRecords]
  constructor
  · rintro ⟨t, ht, he⟩
    rcases mem_append.mp ht with ht | ht
    · obtain ⟨f, hf, rfl⟩ := mem_map.mp ht
      exact .inl ⟨f, hf, he⟩
    · exact .inr ⟨t, ht, he⟩
  · rintro (⟨f, hf, he⟩ | ⟨t, ht, he⟩)
    · exact ⟨f.table, mem_append_left _ (mem_map.mpr ⟨f, hf, rfl⟩), he⟩
    · exact ⟨t, mem_append_right _ ht, he⟩

/-- Frozen MemTables, newest first, and then what is on disk. -/
def diskSources (w : World) : List (List Entry) :=
  (unflushed w).map (·.table.map) ++ [heldRecords w]

/-- Higher ids are newer. -/
structure IdOrdered (w : World) : Prop where
  frozen : (diskSources w).Pairwise Newer
  files : ∀ f ∈ w.files, ∀ g ∈ w.files, f.table.id ∉ w.garbage → g.table.id ∉ w.garbage →
    g.table.id < f.table.id → Newer f.table.records g.table.records
  /-- An output under a higher id than the table being written. -/
  writing : ∀ j id, w.flush = some j → j.stage = .write id → ∀ f ∈ w.files,
    f.table.id ∉ w.garbage → id < f.table.id → Newer f.table.records j.frozen.table.map
  /-- The output of a cycle, before it is written. -/
  output : ∀ c oldest id, w.cycle = some c → c.stage = .allocated oldest id → ∀ f ∈ w.files,
    f.table.id ∉ w.garbage →
      (f.table.id < id → Newer (inputRecords c.inputs) f.table.records) ∧
      (id < f.table.id → Newer f.table.records (inputRecords c.inputs))
  outputJob : ∀ c oldest id j i, w.cycle = some c → c.stage = .allocated oldest id →
    w.flush = some j → j.stage = .write i → i < id →
    Newer (inputRecords c.inputs) j.frozen.table.map

theorem idOrdered_init (cfg : LsmConfig) : IdOrdered (World.init cfg) where
  frozen := pairwise_singleton _ _
  files := by intro f hf; cases hf
  writing := by intro j id hj; cases hj
  output := by intro c oldest id hc; cases hc
  outputJob := by intro c oldest id j i hc; cases hc

/-! ## Frozen MemTables over the disk -/

/-- What is on disk only shrinks or gets copies. -/
theorem frozen_mono (h : (diskSources w).Pairwise Newer) (hu : (unflushed w').Sublist (unflushed w))
    (hd : ∀ e ∈ heldRecords w', e ∈ heldRecords w) : (diskSources w').Pairwise Newer := by
  obtain ⟨hfrozen, _, hcross⟩ := pairwise_append.mp h
  refine pairwise_append.mpr
    ⟨hfrozen.sublist (hu.map _), pairwise_singleton _ _, fun t ht u hu' => ?_⟩
  rw [mem_singleton.mp hu']
  exact newer_order.subset_right (hcross t ((hu.map _).subset ht) _ (mem_singleton_self _)) hd

/-- The oldest frozen MemTable reaches the disk. -/
theorem frozen_write (h : (diskSources w).Pairwise Newer) (hj : w.flush = some j)
    (hu : unflushed w' = unflushed w)
    (hd : ∀ e ∈ heldRecords w', e ∈ heldRecords w ∨ e ∈ j.frozen.table.map) :
    (diskSources w').Pairwise Newer := by
  obtain ⟨hfrozen, _, hcross⟩ := pairwise_append.mp h
  unfold diskSources
  rw [hu]
  refine pairwise_append.mpr ⟨hfrozen, pairwise_singleton _ _, fun t ht u hu' => ?_⟩
  rw [mem_singleton.mp hu']
  have hnew : Newer t j.frozen.table.map := by
    rw [unflushed_job hj, map_append] at ht hfrozen
    rcases mem_append.mp ht with ht | ht
    · exact (pairwise_append.mp hfrozen).2.2 t ht _ (mem_singleton_self _)
    · rw [mem_singleton.mp ht]
      exact newer_order.refl _
  intro e he
  rcases hd e he with he | he
  · exact hcross t ht _ (mem_singleton_self _) e he
  · exact hnew e he

theorem frozen_freeze (h : (diskSources w).Pairwise Newer) (hs : Sourced w)
    (hnew : Newer w.active.map (appliedEntries w)) : (diskSources w.freeze).Pairwise Newer := by
  have hsrc : diskSources w.freeze = w.active.map :: diskSources w := by
    unfold diskSources
    rw [unflushed_freeze]
    rfl
  rw [hsrc]
  refine pairwise_cons.mpr ⟨fun u hu => newer_order.subset_right hnew fun e he => ?_, h⟩
  rcases mem_append.mp hu with hu | hu
  · obtain ⟨f, hf, rfl⟩ := mem_map.mp hu
    exact hs.frozen f hf e he
  · rw [mem_singleton.mp hu] at he
    rcases mem_heldRecords.mp he with ⟨f, hf, he⟩ | ⟨t, ht, he⟩
    · exact hs.files f hf e he
    · exact hs.tables t ht e he

section

variable (h : IdOrdered w)
include h

/-- A frozen MemTable is newer than anything on disk. -/
theorem IdOrdered.job_newer {u : List Entry} (hj : w.flush = some j)
    (hu : ∀ e ∈ u, e ∈ heldRecords w) : Newer j.frozen.table.map u := by
  refine newer_order.subset_right ?_ hu
  exact (pairwise_append.mp h.frozen).2.2 _
    (mem_map.mpr ⟨_, job_mem_unflushed hj, rfl⟩) _ (mem_singleton_self _)

/-! ## Steps -/

/-- The flush thread goes on with no id to write under. -/
theorem IdOrdered.flushTo {j' : FlushJob} {stage : FlushStage}
    (hj : w.flush = some j) (hq : w₁.queue = w.queue) (hfz : j'.frozen = j.frozen)
    (hw : w₁.files = w.files ∧ w₁.garbage = w.garbage ∧ w₁.cycle = w.cycle)
    (hd : ∀ e ∈ heldRecords w₁, e ∈ heldRecords w) (hst : ∀ id, stage ≠ .write id) :
    IdOrdered (w₁.flushTo j' stage) := by
  obtain ⟨hf, hg, hc⟩ := hw
  have hu : unflushed (w₁.flushTo j' stage) = unflushed w := unflushed_flushTo hj hq hfz
  exact {
    frozen := frozen_mono h.frozen (hu ▸ List.Sublist.refl _) hd
    files := by
      have hfiles := h.files
      rwa [← hf, ← hg] at hfiles
    writing := by
      intro k id hk hs
      cases hk
      exact absurd hs (hst id)
    output := by
      intro c oldest id hc' hs f hmem hnot
      exact h.output c oldest id (hc ▸ hc') hs f (hf ▸ hmem) (hg ▸ hnot)
    outputJob := by
      intro c oldest id k i _ _ hk hs
      cases hk
      exact absurd hs (hst i) }

/-- A cycle starts, fails, or goes on; it holds no id to write under. -/
theorem IdOrdered.setCycle {c : Option Cycle}
    (hw : w₁.files = w.files ∧ w₁.garbage = w.garbage ∧ w₁.sstables = w.sstables ∧
      w₁.flush = w.flush ∧ w₁.queue = w.queue)
    (hc : ∀ c' oldest id, c = some c' → c'.stage ≠ .allocated oldest id) :
    IdOrdered (w₁.setCycle c) := by
  obtain ⟨hf, hg, ht, hj, hq⟩ := hw
  have hsrc : diskSources (w₁.setCycle c) = diskSources w := by
    simp [diskSources, unflushed, heldRecords, World.setCycle, hf, ht, hj, hq]
  exact {
    frozen := by rw [hsrc]; exact h.frozen
    files := by
      have hfiles := h.files
      rwa [← hf, ← hg] at hfiles
    writing := fun j id hj' hs f hmem hnot =>
      h.writing j id (hj ▸ hj') hs f (hf ▸ hmem) (hg ▸ hnot)
    output := fun c' oldest id hc' hs => absurd hs (hc c' oldest id hc')
    outputJob := fun c' oldest id j i hc' hs => absurd hs (hc c' oldest id hc') }

theorem idOrdered_flushBegin (hf : Filed w)
    (hj : w.flush = some j) : IdOrdered (w.takeId.flushTo j (.write w.nextId)) := by
  have hu : unflushed (w.takeId.flushTo j (.write w.nextId)) = unflushed w :=
    unflushed_flushTo hj rfl rfl
  exact { h with
    frozen := frozen_mono h.frozen (hu ▸ List.Sublist.refl _) fun e he => he
    writing := by
      intro k id hk hs f hmem _ hlt
      cases hk
      obtain rfl := FlushStage.write.inj hs
      exact absurd hlt (Nat.lt_asymm (hf.below f hmem))
    outputJob := by
      intro c oldest id k i hc hs hk hs' hlt
      cases hk
      obtain rfl := FlushStage.write.inj hs'
      exact absurd hlt (Nat.lt_asymm (hf.allocated c oldest id hc hs).1) }

/-- **A table is flushed:** it is newer than everything under a lower id because it comes
from the line, and older than an output under a higher id by what held when that id was
taken. -/
theorem idOrdered_flushWrite (hcy : Cycling w) (hj : w.flush = some j) (hst : j.stage = .write id) :
    IdOrdered ((w.addFile ⟨writeFromMemtable j.frozen.table id, size⟩).flushTo j
      (.add id size)) := by
  have hu : unflushed ((w.addFile ⟨writeFromMemtable j.frozen.table id, size⟩).flushTo j
      (.add id size)) = unflushed w := unflushed_flushTo hj rfl rfl
  have hheld : ∀ f ∈ w.files, ∀ e ∈ f.table.records, e ∈ heldRecords w :=
    fun f hf e he => mem_heldRecords.mpr (.inl ⟨f, hf, he⟩)
  exact {
    frozen := by
      refine frozen_write h.frozen hj hu fun e he => ?_
      rcases mem_heldRecords.mp he with ⟨f, hf, he⟩ | ht
      · rcases mem_append.mp hf with hf | hf
        · exact .inl (hheld f hf e he)
        · rw [mem_singleton.mp hf] at he
          exact .inr he
      · exact .inl (mem_heldRecords.mpr (.inr ht))
    files := by
      intro f hf g hg hfg hgg hlt
      rcases mem_append.mp hf with hf | hf
      · rcases mem_append.mp hg with hg | hg
        · exact h.files f hf g hg hfg hgg hlt
        · obtain rfl := mem_singleton.mp hg
          exact h.writing j id hj hst f hf hfg hlt
      · obtain rfl := mem_singleton.mp hf
        rcases mem_append.mp hg with hg | hg
        · exact h.job_newer hj (hheld g hg)
        · obtain rfl := mem_singleton.mp hg
          exact newer_order.refl _
    writing := by
      intro k i hk hs
      cases hk
      cases hs
    output := by
      intro c oldest i hc hs f hf hnot
      rcases mem_append.mp hf with hf | hf
      · exact h.output c oldest i hc hs f hf hnot
      · obtain rfl := mem_singleton.mp hf
        refine ⟨fun hlt => h.outputJob c oldest i j id hc hs hj hst hlt, fun _ => ?_⟩
        refine h.job_newer hj fun e he => ?_
        obtain ⟨t, ht, he⟩ := mem_inputRecords.mp he
        exact mem_heldRecords.mpr (.inr ⟨t, hcy.inputs c hc t ht, he⟩)
    outputJob := by
      intro c oldest i k n _ _ hk hs
      cases hk
      cases hs }

/-- An output takes its id: the highest so far. -/
theorem idOrdered_compactAllocate (hf : Filed w) (hc : w.cycle = some c)
    (hnew : AllocateNewest w .compactAllocate) :
    IdOrdered (w.takeId.setCycle (some ⟨c.inputs, .allocated oldest w.nextId⟩)) := by
  obtain ⟨hfiles, hjob⟩ := hnew rfl c hc
  exact { h with
    output := by
      intro c' oldest' id hc' hs f hmem hnot
      cases hc'
      obtain ⟨_, rfl⟩ := CycleStage.allocated.inj hs
      exact ⟨fun _ => hfiles f hmem hnot,
        fun hlt => absurd hlt (Nat.lt_asymm (hf.below f hmem))⟩
    outputJob := by
      intro c' oldest' id j i hc' _ hj hs _
      cases hc'
      exact hjob j hj (by rw [hs]; rfl) }

/-- **An output is written** where it belongs. -/
theorem idOrdered_compactWrite (hcy : Cycling w) (hc : w.cycle = some c)
    (hst : c.stage = .allocated oldest id) :
    IdOrdered ((w.addFile ⟨mergeTable c.inputs oldest id, size⟩).setCycle
      (some ⟨c.inputs, .written (mergeTable c.inputs oldest id) size⟩)) := by
  have hcond := h.output c oldest id hc hst
  exact {
    frozen := by
      refine frozen_mono h.frozen (List.Sublist.refl _) fun e he => ?_
      rcases mem_heldRecords.mp he with ⟨f, hf, he⟩ | ht
      · rcases mem_append.mp hf with hf | hf
        · exact mem_heldRecords.mpr (.inl ⟨f, hf, he⟩)
        · rw [mem_singleton.mp hf] at he
          exact mem_heldRecords.mpr (.inr (hcy.mem_merge hc he))
      · exact mem_heldRecords.mpr (.inr ht)
    files := by
      intro f hf g hg hfg hgg hlt
      rcases mem_append.mp hf with hf | hf
      · rcases mem_append.mp hg with hg | hg
        · exact h.files f hf g hg hfg hgg hlt
        · obtain rfl := mem_singleton.mp hg
          exact newer_order.subset_right ((hcond f hf hfg).2 hlt) fun e he => merge_subset he
      · obtain rfl := mem_singleton.mp hf
        rcases mem_append.mp hg with hg | hg
        · exact merge_newer ((hcond g hg hgg).1 hlt)
        · obtain rfl := mem_singleton.mp hg
          exact newer_order.refl _
    writing := by
      intro j i hj hs f hf hnot hlt
      rcases mem_append.mp hf with hf | hf
      · exact h.writing j i hj hs f hf hnot hlt
      · obtain rfl := mem_singleton.mp hf
        exact merge_newer (h.outputJob c oldest id j i hc hst hj hs hlt)
    output := by
      intro c' oldest' i hc' hs
      cases hc'
      cases hs
    outputJob := by
      intro c' oldest' i j n hc' hs
      cases hc'
      cases hs }

theorem idOrdered_splice {output : SsTable} (hcy : Cycling w) (hc : w.cycle = some c)
    (hst : c.stage = .removing output []) : IdOrdered (w.splice c.inputs output) := by
  have hnot : ∀ {id : Nat}, id ∉ w.garbage ++ c.inputs.map (·.id) → id ∉ w.garbage :=
    fun hn hm => hn (mem_append_left _ hm)
  exact {
    frozen := by
      refine frozen_mono h.frozen (List.Sublist.refl _) fun e he => ?_
      rcases mem_heldRecords.mp he with hf | ⟨t, ht, het⟩
      · exact mem_heldRecords.mpr (.inl hf)
      · rcases mem_splice ht with rfl | ⟨ht, _⟩
        · exact mem_heldRecords.mpr (.inr (hcy.mem_output hc (by rw [hst]; rfl) het))
        · exact mem_heldRecords.mpr (.inr ⟨t, ht, het⟩)
    files := fun f hf g hg hfg hgg => h.files f hf g hg (hnot hfg) (hnot hgg)
    writing := fun j id hj hs f hf hfg => h.writing j id hj hs f hf (hnot hfg)
    output := by intro c' oldest id hc'; cases hc'
    outputJob := by intro c' oldest id j i hc'; cases hc' }

theorem idOrdered_unlink : IdOrdered { w with
    files := w.files.filter (·.table.id ≠ id)
    garbage := w.garbage.filter (· ≠ id) } := by
  have hfile : ∀ {f : SstFile}, f ∈ w.files.filter (·.table.id ≠ id) →
      f.table.id ∉ w.garbage.filter (· ≠ id) → f ∈ w.files ∧ f.table.id ∉ w.garbage := by
    intro f hf hn
    obtain ⟨hf, hne⟩ := mem_filter.mp hf
    exact ⟨hf, fun hm => hn (mem_filter.mpr ⟨hm, hne⟩)⟩
  exact {
    frozen := by
      refine frozen_mono h.frozen (List.Sublist.refl _) fun e he => ?_
      rcases mem_heldRecords.mp he with ⟨f, hf, he⟩ | ht
      · exact mem_heldRecords.mpr (.inl ⟨f, (mem_filter.mp hf).1, he⟩)
      · exact mem_heldRecords.mpr (.inr ht)
    files := fun f hf g hg hfg hgg =>
      h.files f (hfile hf hfg).1 g (hfile hg hgg).1 (hfile hf hfg).2 (hfile hg hgg).2
    writing := fun j i hj hs f hf hfg => h.writing j i hj hs f (hfile hf hfg).1 (hfile hf hfg).2
    output := fun c oldest i hc hs f hf hfg =>
      h.output c oldest i hc hs f (hfile hf hfg).1 (hfile hf hfg).2
    outputJob := h.outputJob }

/-- **The id order survives every step** that freezes in order and gives outputs their ids
in time. -/
theorem idOrdered_step (hb : Base w) (hs : Step crc w a w') (hne : isReopen a = false)
    (hfn : FreezeNewer w a) (han : AllocateNewest w a) : IdOrdered w' := by
  cases hs with
  | @applyFreeze r hr hd hfull hroom =>
    refine { h with frozen := ?_ }
    have hw : (diskSources (w.applyRecord r)).Pairwise Newer := h.frozen
    exact frozen_freeze hw (hb.sourced.applyRecord r) (hfn r hr rfl hfull hroom)
  | flushRecv hf hq =>
    have hu := unflushed_recv hf hq
    exact { h with
      frozen := frozen_mono h.frozen (hu ▸ List.Sublist.refl _) fun e he => he
      writing := by
        intro j id hj hs
        cases hj
        cases hs
      outputJob := by
        intro c oldest id j i _ _ hj hs
        cases hj
        cases hs }
  | flushBegin hj => exact idOrdered_flushBegin h hb.filed hj
  | flushWrite hj hst => exact idOrdered_flushWrite h hb.cycling hj hst
  | @flushInstall j f id hj hst hmem =>
    refine h.flushTo hj rfl rfl ⟨rfl, rfl, rfl⟩ (fun e he => ?_) (by simp)
    -- the table installed was on disk before
    rcases mem_heldRecords.mp he with hf | ⟨t, ht, he⟩
    · exact mem_heldRecords.mpr (.inl hf)
    · rcases mem_cons.mp ht with rfl | ht
      · exact mem_heldRecords.mpr (.inl ⟨f, hmem, he⟩)
      · exact mem_heldRecords.mpr (.inr ⟨t, ht, he⟩)
  | flushRotate hj =>
    refine h.flushTo hj rfl rfl ⟨rfl, rfl, rfl⟩ (fun e he => he) fun id => ?_
    split <;> simp
  | flushPurge hj =>
    have hu := unflushed_purge hj
    exact { h with
      frozen := frozen_mono h.frozen (hu ▸ sublist_append_left _ _) fun e he => he
      writing := by intro j id hj; cases hj
      outputJob := by intro c oldest id j i _ _ hj; cases hj }
  | compactCapture | compactSample | compactAdd | compactRemove =>
    refine h.setCycle ⟨rfl, rfl, rfl, rfl, rfl⟩ fun c' oldest id hc' hs => ?_
    cases hc'
    cases hs
  | compactAddFail | compactRemoveFail | compactAbort =>
    exact h.setCycle ⟨rfl, rfl, rfl, rfl, rfl⟩ (by simp)
  | compactAllocate hc => exact idOrdered_compactAllocate h hb.filed hc han
  | compactWrite hc hst => exact idOrdered_compactWrite h hb.cycling hc hst
  | compactSplice hc hst => exact idOrdered_splice h hb.cycling hc hst
  | unlink => exact idOrdered_unlink h
  | flushResume hj | flushAdd hj | flushAddFail hj | flushInstalled hj | flushInstallGone hj
  | flushMarker hj | flushAwait hj | flushCheckpointDone hj | flushCheckpoint hj
  | flushCheckpointFail hj | flushRetire hj | flushPurgeFail hj | flushFail hj =>
    exact h.flushTo hj rfl rfl ⟨rfl, rfl, rfl⟩ (fun e he => he) (by simp)
  | reopen => cases hne
  | _ => exact { h with }

end

/-! ## The rebuilt list -/

/-- A table that reconciliation keeps is in use. -/
theorem Ledger.kept_in_use {f : SstFile} (h : Ledger w st)
    (hs : Survives st f) : f.table.id ∉ w.garbage := by
  intro hg
  obtain ⟨hever, hdead⟩ := h.garbage _ hg
  rcases hs with hlive | hnot
  · rw [hdead] at hlive
    cases hlive
  · exact hnot hever

/-- The list that reconciliation builds from these files, newest id first. -/
theorem rebuilt_newer {found : List SstFile} (h : IdOrdered w)
    (hids : (found.map (·.table.id)).Nodup) (hfound : ∀ f ∈ found, f ∈ w.files)
    (hused : ∀ f ∈ found, Survives st f → f.table.id ∉ w.garbage) :
    ((insertTables [] (keptFiles st found)).reverse.map (·.records)).Pairwise Newer ∧
      ∀ t ∈ (insertTables [] (keptFiles st found)).reverse, ∃ f ∈ w.files, f.table = t := by
  have hkept : ((keptFiles st found).map (·.table.id)).Nodup :=
    hids.sublist (filter_sublist.map _)
  obtain ⟨hsorted, hmem⟩ := insertTables_spec hkept .nil (by simp)
  have hfile : ∀ t ∈ insertTables [] (keptFiles st found),
      ∃ f ∈ w.files, f.table = t ∧ f.table.id ∉ w.garbage := by
    intro t ht
    obtain ⟨f, hf, rfl⟩ := ((hmem t).mp ht).resolve_left (by simp)
    obtain ⟨hf, hs⟩ := mem_filter.mp hf
    exact ⟨f, hfound f hf, rfl, hused f hf (of_decide_eq_true hs)⟩
  refine ⟨pairwise_map.mpr (pairwise_reverse.mpr ?_), fun t ht => ?_⟩
  · refine List.Pairwise.imp_of_mem (fun {t u} ht hu hlt => ?_) hsorted
    obtain ⟨g, hg, rfl, hgg⟩ := hfile t ht
    obtain ⟨f, hf, rfl, hfg⟩ := hfile u hu
    exact h.files f hf g hg hfg hgg hlt
  · obtain ⟨f, hf, rfl, _⟩ := hfile t (mem_reverse.mp ht)
    exact ⟨f, hf, rfl⟩

/-- Runs of flushes and compactions in one life of the process, in order. -/
def OrderedRun (w : World) (a : Act) : Prop :=
  isReopen a = false ∧ NoAppendFault a ∧ FreezeNewer w a ∧ AllocateNewest w a

instance (w : World) (a : Act) : Decidable (OrderedRun w a) :=
  inferInstanceAs (Decidable (_ ∧ _ ∧ _ ∧ _))

/--
**The rebuilt list answers with the newest version.** After a crash at any point of a run
in which MemTables are frozen in order and no output takes its id over newer tables, the
manifest replays, reconciliation succeeds whichever of the unrecorded files are still
there, and walking its list finds the newest version of every key among all its tables.
-/
theorem rebuilt_list_newest {cfg : LsmConfig} {n : Nat}
    (h : Reach (World.act crc) OrderedRun (World.init cfg) w) (hn : w.manifest.synced ≤ n) :
    ∃ m r, Manifest.openFile crc (w.manifest.file.take n) w.manifest.synced = .ok (m, r) ∧
      ∀ lost : List Nat, (∀ id ∈ lost, r.state.isLive id = false) →
        ∃ tables nextId acc,
          reconcileSstablesWithManifest crc (w.files.filter fun f => f.table.id ∉ lost) m r.state =
            .ok (tables, nextId, acc) ∧
          ∀ key, Answers (inputRecords tables) key u64Max
            (tables.findSome? fun t => t.getVersioned key u64Max) := by
  obtain ⟨hb, hseg, ht, hid, es, st, hacc⟩ :
      Base w ∧ Segmented w ∧ Tracked w ∧ IdOrdered w ∧ ∃ es st, Accurate crc w es st :=
    reach_invariant (P := fun w => Base w ∧ Segmented w ∧ Tracked w ∧ IdOrdered w ∧
        ∃ es st, Accurate crc w es st) h
      ⟨base_init cfg, segmented_init cfg, tracked_init cfg, idOrdered_init cfg, [], {},
        accurate_init cfg⟩
      fun ⟨hb, hseg, ht, hid, es, st, hacc⟩ ⟨hne, hnf, hfn, han⟩ hs =>
        ⟨base_step hb hs hne, segmented_step hseg hb.numbered hs hne,
          tracked_step ht hb.numbered hs hne, idOrdered_step hid hb hs hne hfn han,
          accurate_step hacc hb hseg ht hs hne hnf⟩
  obtain ⟨es', m, r, hopen, hst, hes', hes, _⟩ := logs_openFile hacc.logs hn
  -- everything was synced, so everything is read back
  obtain rfl : es' = es := hes'.eq_of_length_le hes.length_le
  obtain rfl : r.state = st := Except.ok.inj (hst.symm.trans hacc.state)
  refine ⟨m, r, hopen, fun lost hlost => ?_⟩
  have hids : ((w.files.filter fun f => f.table.id ∉ lost).map (·.table.id)).Nodup :=
    hb.filed.nodup.sublist (filter_sublist.map _)
  obtain ⟨nextId, acc, hrec⟩ := @reconcile_returns crc _ m r.state hids fun id hlive => by
    obtain ⟨f, hf, rfl⟩ := hacc.ledger.present id hlive
    refine ⟨f, mem_filter.mpr ⟨hf, ?_⟩, rfl⟩
    have hnot : f.table.id ∉ lost := fun hin => by simp [hlost _ hin] at hlive
    simpa using hnot
  refine ⟨_, nextId, acc, hrec, fun key => ?_⟩
  obtain ⟨hnewer, hfiles⟩ := rebuilt_newer hid hids (fun f hf => (mem_filter.mp hf).1)
    fun _ _ hs => hacc.ledger.kept_in_use hs
  generalize
    (insertTables [] (keptFiles r.state (w.files.filter fun f => f.table.id ∉ lost))).reverse
    = tables at hnewer hfiles ⊢
  have happlied : ∀ e ∈ inputRecords tables, e ∈ appliedEntries w := by
    intro e he
    obtain ⟨t, ht, he⟩ := mem_inputRecords.mp he
    obtain ⟨f, hf, rfl⟩ := hfiles t ht
    exact hb.sourced.files f hf e he
  have hmax : ∀ e ∈ inputRecords tables, e.seq ≤ u64Max :=
    fun e he => applied_le_max hb.numbered (happlied e he)
  have hcoh : Coherent (inputRecords tables) := (coherent_applied hb.numbered).subset happlied
  rw [findSome_getVersioned, firstHit_eq_best_top hcoh hnewer key hmax]
  exact answers_best _ _ _

/-! ## Two runs -/

/-- A cycle captures one table; a table with `key` takes its id before the cycle's output
does, and both are recorded. -/
def overtakingRun (key : Bytes) : List Act :=
  putRun 1 [107] [1] ++ publishRun ++ checkpointRun 2 ++ putRun 3 key [2] ++
    [.compactCapture, .flushRecv, .flushBegin, .compactSample, .compactAllocate, .flushWrite 0,
      .flushAdd .none, .compactWrite 0, .compactAdd .none]

/-- **A restart can hide a newer version.** The output of the cycle has a higher id than the
table flushed after its capture, and comes first in the rebuilt list. -/
theorem rebuilt_list_hides_newer_version :
    ∃ w, Reach (World.act crc32c)
        (fun w a => isReopen a = false ∧ NoAppendFault a ∧ FreezeNewer w a)
        (World.init tinyConfig) w ∧
      ∃ mr, Manifest.openFile crc32c w.manifest.file w.manifest.synced = .ok mr ∧
        ∃ list, reconcileSstablesWithManifest crc32c w.files mr.1 mr.2.state = .ok list ∧
          ¬ Answers (inputRecords list.1) [107] u64Max
            (list.1.findSome? fun t => t.getVersioned [107] u64Max) := by
  obtain ⟨w, hreach, hw⟩ : ∃ w, Reach (World.act crc32c)
      (fun w a => isReopen a = false ∧ NoAppendFault a ∧ FreezeNewer w a)
      (World.init tinyConfig) w ∧
      (Manifest.openFile crc32c w.manifest.file w.manifest.synced).toOption.any (fun mr =>
        (reconcileSstablesWithManifest crc32c w.files mr.1 mr.2.state).toOption.any (fun list =>
          ¬ Answers (inputRecords list.1) [107] u64Max
            (list.1.findSome? fun t => t.getVersioned [107] u64Max)) = true) = true :=
    exists_reach_of_run (overtakingRun [107]) (by decide +kernel)
  obtain ⟨mr, hopen, hlist⟩ := exists_ok hw
  exact ⟨w, hreach, mr, hopen, exists_ok hlist⟩

/-- With another key in the second table the same run is in order. -/
theorem rebuilt_list_newest_other_key :
    ∃ w : World, w.files.length = 3 ∧
      ∃ m r, Manifest.openFile crc32c (w.manifest.file.take w.manifest.synced)
          w.manifest.synced = .ok (m, r) ∧
        ∀ lost : List Nat, (∀ id ∈ lost, r.state.isLive id = false) →
          ∃ tables nextId acc,
            reconcileSstablesWithManifest crc32c (w.files.filter fun f => f.table.id ∉ lost) m
              r.state = .ok (tables, nextId, acc) ∧
            ∀ key, Answers (inputRecords tables) key u64Max
              (tables.findSome? fun t => t.getVersioned key u64Max) := by
  obtain ⟨w, hreach, hlen⟩ : ∃ w,
      Reach (World.act crc32c) OrderedRun (World.init tinyConfig) w ∧ w.files.length = 3 :=
    exists_reach_of_run (overtakingRun [108]) (by decide +kernel)
  exact ⟨w, hlen, rebuilt_list_newest hreach (Nat.le_refl _)⟩

end RubixDb.Proof
