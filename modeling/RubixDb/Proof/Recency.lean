import RubixDb.Lib.Crc32c
import RubixDb.Proof.Base

/-!
# The list order is the recency order

A read stops at the first source that holds a visible version, so the order of the
sources has to be the order of their versions, key by key. Frozen MemTables on their way
to disk and the tables of the live list form one sequence; `Ordered R` says that each
element of it is before every later one in the order `R` on sources.

A freeze keeps the order when the MemTable holds nothing older than what was frozen
before it (`FlushOrder`). Publishing the oldest frozen MemTable keeps it as well. The
splice of a compaction does not in general: the output goes to the front of the list,
before tables that were published while the cycle ran. It does when those share no key
with the inputs (`SpliceDisjoint`).
-/

namespace RubixDb.Proof

open Lib List

variable {crc : Bytes → UInt32} {w w' : World} {a : Act}

/-- What a read asks after the active MemTable, the flushed MemTables included that are
not retired yet. -/
def frozenSources (w : World) : List (List Entry) :=
  (unflushed w).map (·.table.map) ++ w.sstables.map (·.records)

/-- Each frozen source is before those after it. -/
def Ordered (R : List Entry → List Entry → Prop) (w : World) : Prop := (frozenSources w).Pairwise R

/-- A MemTable that is frozen comes before everything applied so far. -/
def FreezeIn (R : List Entry → List Entry → Prop) (w : World) (a : Act) : Prop :=
  ∀ r ∈ w.pending, a = .apply r.seq → (w.applyRecord r).active.isFull = true →
    w.immutables.length < w.cfg.maxImmutableMemtables →
    R (w.applyRecord r).active.map (appliedEntries (w.applyRecord r))

instance (R : List Entry → List Entry → Prop) [∀ t u, Decidable (R t u)] (w : World) (a : Act) :
    Decidable (FreezeIn R w a) :=
  inferInstanceAs (Decidable (∀ r ∈ w.pending, _ → _ → _ → _))

/-- A MemTable that is frozen holds, of each of its keys, only versions newer than those
frozen before it. -/
def FlushOrder (w : World) (a : Act) : Prop := FreezeIn Recent w a

/-- At a splice, the tables published since the inputs were captured share no key with
them. -/
def SpliceDisjoint (w : World) (a : Act) : Prop :=
  a = .compactSplice → ∀ c ∈ w.cycle, ∀ t ∈ w.sstables, (∀ i ∈ c.inputs, i.id ≠ t.id) →
    ∀ e ∈ t.records, ¬ HasKey (inputRecords c.inputs) e.key

instance (w : World) (a : Act) : Decidable (FlushOrder w a) :=
  inferInstanceAs (Decidable (FreezeIn Recent w a))

instance (w : World) (a : Act) : Decidable (SpliceDisjoint w a) :=
  inferInstanceAs (Decidable (_ → ∀ c ∈ w.cycle, ∀ t ∈ w.sstables, (∀ i ∈ c.inputs, _) →
    ∀ e ∈ t.records, ¬ _))

section Order

variable {R : List Entry → List Entry → Prop} {w₁ : World} {j j' : FlushJob} {stage : FlushStage}

theorem ordered_init (cfg : LsmConfig) : Ordered R (World.init cfg) := .nil

theorem frozenSources_applied (hb : Sourced w) : ∀ u ∈ frozenSources w, ∀ e ∈ u,
    e ∈ appliedEntries w := by
  intro u hu e he
  rcases mem_append.mp hu with hu | hu
  · obtain ⟨f, hf, rfl⟩ := mem_map.mp hu
    exact hb.frozen f hf e he
  · obtain ⟨t, ht, rfl⟩ := mem_map.mp hu
    exact hb.tables t ht e he

theorem frozenSources_freeze (w : World) :
    frozenSources w.freeze = w.active.map :: frozenSources w := by
  unfold frozenSources
  rw [unflushed_freeze]
  rfl

theorem Ordered.freeze (h : Ordered R w) (hR : SourceOrder R) (hb : Sourced w)
    (ho : R w.active.map (appliedEntries w)) : Ordered R w.freeze := by
  unfold Ordered
  rw [frozenSources_freeze]
  exact pairwise_cons.mpr
    ⟨fun u hu => hR.subset_right ho (frozenSources_applied hb u hu), h⟩

theorem frozenSources_flushTo (hj : w.flush = some j) (hq : w₁.queue = w.queue)
    (hfz : j'.frozen = j.frozen) :
    frozenSources (w₁.flushTo j' stage) =
      (unflushed w).map (·.table.map) ++ w₁.sstables.map (·.records) := by
  unfold frozenSources
  rw [unflushed_flushTo hj hq hfz]
  rfl

/-- The flush thread goes on and the list stays. -/
theorem Ordered.flushTo (h : Ordered R w) (hj : w.flush = some j) (hq : w₁.queue = w.queue)
    (hfz : j'.frozen = j.frozen)
    (ht : w₁.sstables = w.sstables) : Ordered R (w₁.flushTo j' stage) := by
  unfold Ordered
  rw [frozenSources_flushTo hj hq hfz, ht]
  exact h

/-- The MemTable being flushed is the oldest of the unflushed ones. -/
theorem unflushed_job (hj : w.flush = some j) :
    unflushed w = (w.queue.map (·.1)).reverse ++ [j.frozen] := by
  simp [unflushed, hj]

/-- **Publishing the oldest frozen MemTable keeps the order:** it goes right behind
itself. -/
theorem ordered_install {t : SsTable} (h : Ordered R w) (hR : SourceOrder R) (hj : w.flush = some j)
    (ht : t.records = j.frozen.table.map) : Ordered R ((w.install t).flushTo j .rotate) := by
  have hsrc : frozenSources ((w.install t).flushTo j .rotate) =
      (unflushed w).map (·.table.map) ++ (w.install t).sstables.map (·.records) :=
    frozenSources_flushTo hj rfl rfl
  unfold Ordered
  rw [hsrc]
  unfold Ordered frozenSources at h
  rw [unflushed_job hj, map_append, append_assoc] at h ⊢
  show (_ ++ j.frozen.table.map :: t.records :: w.sstables.map (·.records)).Pairwise R
  rw [ht]
  exact hR.double h

/-- **A splice keeps the order** when its output belongs before every table published since
the capture. -/
theorem ordered_splice {inputs : List SsTable} {output : SsTable} (h : Ordered R w)
    (hR : SourceOrder R) (hin : ∀ t ∈ inputs, t ∈ w.sstables)
    (hout : ∀ e ∈ output.records, e ∈ inputRecords inputs)
    (hover : ∀ t ∈ w.sstables, (∀ i ∈ inputs, i.id ≠ t.id) → R output.records t.records) :
    Ordered R (w.splice inputs output) := by
  obtain ⟨hfrozen, hlist, hcross⟩ := pairwise_append.mp h
  have hsub : (w.sstables.filter fun t => ¬ inputs.any (·.id = t.id)).Sublist w.sstables :=
    filter_sublist
  have hrest := hlist.sublist (hsub.map (·.records))
  -- the frozen MemTables stand before the inputs, so before the output
  have hnew : ∀ f ∈ (unflushed w).map (·.table.map), R f output.records := by
    refine fun f hf => hR.right fun e he => ?_
    obtain ⟨t, ht, het⟩ := mem_flatMap.mp (hout e he)
    exact ⟨t.records, het, hcross f hf _ (mem_map.mpr ⟨t, hin t ht, rfl⟩)⟩
  have hold : ∀ u ∈ (w.sstables.filter fun t => ¬ inputs.any (·.id = t.id)).map (·.records),
      R output.records u := by
    intro u hu
    obtain ⟨t, ht, rfl⟩ := mem_map.mp hu
    obtain ⟨ht, hne⟩ := mem_filter.mp ht
    exact hover t ht (by simpa using hne)
  refine pairwise_append.mpr ⟨hfrozen, ?_, fun f hf u hu => ?_⟩
  · simp only [World.splice]
    split
    · exact hrest
    · exact pairwise_cons.mpr ⟨hold, hrest⟩
  · obtain ⟨t, ht, rfl⟩ := mem_map.mp hu
    rcases mem_splice ht with rfl | ⟨ht, _⟩
    · exact hnew f hf
    · exact hcross f hf _ (mem_map.mpr ⟨t, ht, rfl⟩)

/-- The output of the splice, if the step is one, belongs before the tables that stay. -/
def SpliceIn (R : List Entry → List Entry → Prop) (w : World) (a : Act) : Prop :=
  ∀ c o, a = .compactSplice → w.cycle = some c → c.stage = .removing o [] →
    ∀ t ∈ w.sstables, (∀ i ∈ c.inputs, i.id ≠ t.id) → R o.records t.records

/-- **The order survives every step** of one life of the process that freezes in order
and splices in order. -/
theorem ordered_step (h : Ordered R w) (hR : SourceOrder R) (hb : Base w) (hs : Step crc w a w')
    (hne : isReopen a = false) (hfo : FreezeIn R w a) (hsd : SpliceIn R w a) : Ordered R w' := by
  cases hs with
  | @applyFreeze r hr hd hfull hroom =>
    have hw : Ordered R (w.applyRecord r) := h
    exact hw.freeze hR (hb.sourced.applyRecord r) (hfo r hr rfl hfull hroom)
  | flushRecv hf hq =>
    unfold Ordered frozenSources
    rw [unflushed_recv hf hq]
    exact h
  | @flushInstall j f id hj hst hmem hid hnew =>
    refine ordered_install h hR hj ?_
    have := hb.filed.own j id hj (.inr (.inr (hb.filed.installing j id hj hst))) f hmem hid
    rw [this]
    rfl
  | flushPurge hj =>
    refine List.Pairwise.sublist ?_ h
    unfold frozenSources
    rw [unflushed_purge hj, map_append, append_assoc]
    exact (sublist_append_right _ _).append_left _
  | @compactSplice c output hc hst =>
    obtain ⟨oldest, ho⟩ := hb.cycling.output c output hc (by rw [hst]; rfl)
    refine ordered_splice h hR (hb.cycling.inputs c hc) (fun e he => ?_)
      (hsd c output rfl hc hst)
    rw [ho] at he
    exact merge_subset he
  | flushBegin hj | flushResume hj | flushWrite hj | flushAdd hj | flushAddFail hj
  | flushInstalled hj | flushInstallGone hj | flushRotate hj | flushMarker hj | flushAwait hj
  | flushCheckpointDone hj | flushCheckpoint hj | flushCheckpointFail hj | flushRetire hj
  | flushPurgeFail hj | flushFail hj => exact h.flushTo hj rfl rfl rfl
  | reopen => cases hne
  | _ => exact h

end Order

/-- Nothing is hidden by an output that shares no key with it. -/
theorem SpliceDisjoint.spliceIn (h : SpliceDisjoint w a) (hb : Base w) : SpliceIn Recent w a := by
  intro c o ha hc hst t ht hne
  refine recent_order.apart fun e he hk => h ha c hc t ht hne e he ?_
  obtain ⟨oldest, ho⟩ := hb.cycling.output c o hc (by rw [hst]; rfl)
  obtain ⟨v, hv, hvk⟩ := hk
  rw [ho] at hv
  exact ⟨v, merge_subset hv, hvk⟩

/-! ## Reading the list -/

/-- The part of `get_as_of` that walks the live list. -/
def tableLookup (w : World) (key : Key) (asOf : Nat) : Option Entry :=
  w.sstables.findSome? fun t => t.getVersioned key asOf

/-- Walking a list of tables is a first-hit lookup. -/
theorem findSome_getVersioned (tables : List SsTable) (key : Key) (asOf : Nat) :
    (tables.findSome? fun t => t.getVersioned key asOf) =
      firstHit (tables.map (·.records)) key asOf := by
  simp only [firstHit, findSome?_map]
  rfl

theorem coherent_tables (hb : Base w) : Coherent (inputRecords w.sstables) := by
  refine (coherent_applied hb.numbered).subset fun e he => ?_
  obtain ⟨t, ht, he⟩ := mem_inputRecords.mp he
  exact hb.sourced.tables t ht e he

/--
**The live list answers with the newest version.** In a run where MemTables are frozen in
order and no splice overtakes a table published after its capture, walking the list and
stopping at the first table that holds a visible version of the key finds the newest
visible one in the whole list, at every sequence number.
-/
theorem list_first_hit_newest {cfg : LsmConfig}
    (h : Reach (World.act crc)
      (fun w a => isReopen a = false ∧ FlushOrder w a ∧ SpliceDisjoint w a) (World.init cfg) w)
    (key : Key) (asOf : Nat) :
    Answers (inputRecords w.sstables) key asOf (tableLookup w key asOf) := by
  obtain ⟨hb, ho⟩ : Base w ∧ Ordered Recent w :=
    reach_invariant (P := fun w => Base w ∧ Ordered Recent w) h ⟨base_init cfg, ordered_init cfg⟩
      fun ⟨hb, ho⟩ ⟨hne, hfo, hsd⟩ hs =>
        ⟨base_step hb hs hne, ordered_step ho recent_order hb hs hne hfo (hsd.spliceIn hb)⟩
  have hlist : (w.sstables.map (·.records)).Pairwise Recent :=
    ho.sublist (sublist_append_right _ _)
  rw [tableLookup, findSome_getVersioned, firstHit_eq_best (coherent_tables hb) hlist]
  exact answers_best _ _ _

/-! ## Two runs -/

/-- Every write fills the MemTable, and one table is enough to compact. -/
def tinyConfig : LsmConfig := ⟨1, 4, 1, 10⟩

/-- A write that takes the number `seq`, through to its apply. -/
def putRun (seq : Nat) (key value : Bytes) : List Act :=
  [.append (.put key value), .fsync seq, .apply seq]

/-- The flush thread publishes the oldest frozen MemTable. -/
def publishRun : List Act :=
  [.flushRecv, .flushBegin, .flushWrite 0, .flushAdd .none, .flushInstall]

/-- The rest of the flush, with a marker that takes the number `seq`. -/
def checkpointRun (seq : Nat) : List Act :=
  [.flushRotate, .flushMarker 0, .fsync seq, .flushAwait, .flushCheckpoint .none, .flushRetire,
    .flushPurge []]

/-- A cycle over one table, from the sample on. -/
def compactRun : List Act :=
  [.compactSample, .compactAllocate, .compactWrite 0, .compactAdd .none, .compactRemove .none,
    .compactSplice]

/-- One table is captured, a second one with `key` published, and the first one spliced. -/
def overlappingRun (key : Bytes) : List Act :=
  putRun 1 [107] [1] ++ publishRun ++ [.compactCapture] ++ checkpointRun 2 ++
    putRun 3 key [2] ++ publishRun ++ compactRun

/-- **A splice can hide a newer version.** The table published between the capture and the
splice holds a newer version of the key, and ends up behind the output. -/
theorem splice_hides_newer_version :
    ∃ w, Reach (World.act crc32c) (fun w a => isReopen a = false ∧ FlushOrder w a)
        (World.init tinyConfig) w ∧
      ¬ Answers (inputRecords w.sstables) [107] u64Max (tableLookup w [107] u64Max) :=
  exists_reach_of_run (overlappingRun [107]) (by decide +kernel)

/-- With another key in the second table the same run keeps the order. -/
theorem list_first_hit_newest_other_key :
    ∃ w, w.sstables.length = 2 ∧
      Answers (inputRecords w.sstables) [107] u64Max (tableLookup w [107] u64Max) := by
  obtain ⟨w, hreach, hlen⟩ : ∃ w, Reach (World.act crc32c)
      (fun w a => isReopen a = false ∧ FlushOrder w a ∧ SpliceDisjoint w a)
      (World.init tinyConfig) w ∧ w.sstables.length = 2 :=
    exists_reach_of_run (overlappingRun [108]) (by decide +kernel)
  exact ⟨w, hlen, list_first_hit_newest hreach [107] u64Max⟩

end RubixDb.Proof
