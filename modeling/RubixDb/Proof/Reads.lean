import RubixDb.Proof.Checkpoint
import RubixDb.Proof.Recency

/-!
# What a read at `s` finds

`get_as_of` walks the active MemTable, the immutables and the live list and stops at the
first source with a visible version. `Readable s` is what makes it right for reads at
`s`, whatever happens at other sequence numbers:

* the active MemTable is newer at `s` than everything applied (`top`), and the frozen
  sources are in order at `s` (`ordered`), so the first hit is the best one there is;
* every applied version that a read at `s` sees is still there or has been replaced by a
  newer one that it sees as well (`kept`), also across the retirement of a flushed
  MemTable (`installed`) and across a splice (`Retains`).

Two steps can break it. A record applied after a freeze goes in front of a newer version
of its key that the freeze put behind (`ApplyAt` rules that out), and the output of a
compaction goes in front of tables published since its capture (`SpliceAt`).
-/

namespace RubixDb.Proof

open Lib List

variable {j : FlushJob} {c : Cycle} {o : SsTable} {e : Entry} {r : WalRecord}

variable {crc : Bytes → UInt32} {w w' : World} {a : Act} {s : Nat}

/-! ## The ids of the list -/

/-- The id the output of a cycle has or will have. -/
def outputId : CycleStage → Option Nat
  | .allocated _ id => some id
  | .written o _ => some o.id
  | .removing o _ => some o.id
  | _ => none

/-- Tables of the list have ids of their own. -/
structure Listed (w : World) : Prop where
  nodup : (w.sstables.map (·.id)).Nodup
  below : ∀ t ∈ w.sstables, t.id < w.nextId
  own : ∀ j id, w.flush = some j → Uses j id → ∀ t ∈ w.sstables, t.id = id →
    t = writeFromMemtable j.frozen.table id
  output : ∀ c id, w.cycle = some c → outputId c.stage = some id →
    id < w.nextId ∧ (∀ t ∈ w.sstables, t.id ≠ id) ∧
      ∀ j i, w.flush = some j → Uses j i → i ≠ id

theorem listed_init (cfg : LsmConfig) : Listed (World.init cfg) where
  nodup := nodup_nil
  below := by intro t ht; cases ht
  own := by intro j id hj; cases hj
  output := by intro c id hc; cases hc

/-- The flush thread goes on, using no id it did not use before. -/
theorem Listed.flushTo {w₁ : World} {j' : FlushJob} {stage : FlushStage} (h : Listed w)
    (hj : w.flush = some j) (ht : w₁.sstables = w.sstables) (hn : w₁.nextId = w.nextId)
    (hc : w₁.cycle = w.cycle) (hfz : j'.frozen = j.frozen)
    (huse : ∀ id, Uses { j' with stage := stage } id → Uses j id) :
    Listed (w₁.flushTo j' stage) where
  nodup := (congrArg (fun ts => (List.map (·.id) ts).Nodup) ht).mpr h.nodup
  below := fun t ht' => (h.below t (ht ▸ ht')).trans_eq hn.symm
  own := by
    intro k id hk hu t ht' hid
    cases hk
    have := h.own j id hj (huse id hu) t (ht ▸ ht') hid
    rwa [← hfz] at this
  output := by
    intro c id hc' hid
    obtain ⟨hlt, hts, hus⟩ := h.output c id (hc ▸ hc') hid
    refine ⟨hlt.trans_eq hn.symm, fun t ht' => hts t (ht ▸ ht'), fun k i hk hu => ?_⟩
    cases hk
    exact hus j i hj (huse i hu)

/-- A cycle goes on with the id it has, or with none. -/
theorem Listed.setCycle {w₁ : World} {c : Option Cycle} (h : Listed w)
    (ht : w₁.sstables = w.sstables) (hn : w₁.nextId = w.nextId) (hj : w₁.flush = w.flush)
    (hc : ∀ c' id, c = some c' → outputId c'.stage = some id →
      ∃ c₀, w.cycle = some c₀ ∧ outputId c₀.stage = some id) : Listed (w₁.setCycle c) where
  nodup := (congrArg (fun ts => (List.map (·.id) ts).Nodup) ht).mpr h.nodup
  below := fun t ht' => (h.below t (ht ▸ ht')).trans_eq hn.symm
  own := fun j id hj' hu t ht' => h.own j id (hj ▸ hj') hu t (ht ▸ ht')
  output := by
    intro c' id hc' hid
    obtain ⟨c₀, hc₀, hid₀⟩ := hc c' id hc' hid
    obtain ⟨hlt, hts, hus⟩ := h.output c₀ id hc₀ hid₀
    exact ⟨hlt.trans_eq hn.symm, fun t ht' => hts t (ht ▸ ht'), fun j i hj' => hus j i (hj ▸ hj')⟩

theorem listed_flushBegin (h : Listed w) (hp : j.published = none) :
    Listed (w.takeId.flushTo j (.write w.nextId)) := by
  have huse := @uses_begun j w.nextId hp
  exact {
    nodup := h.nodup
    below := fun t ht => Nat.lt_succ_of_lt (h.below t ht)
    own := by
      intro k id hk hu t ht hid
      cases hk
      exact absurd (hid.trans (huse id hu)) (Nat.ne_of_lt (h.below t ht))
    output := by
      intro c id hc hid
      obtain ⟨hlt, hts, _⟩ := h.output c id hc hid
      refine ⟨Nat.lt_succ_of_lt hlt, hts, fun k i hk hu => ?_⟩
      cases hk
      obtain rfl := huse i hu
      exact (Nat.ne_of_lt hlt).symm }

theorem listed_flushInstall {id : Nat} {f : SstFile} (h : Listed w) (hf : Filed w)
    (hj : w.flush = some j) (hst : j.stage = .install id) (hmem : f ∈ w.files)
    (hid : f.table.id = id) (hnew : ∀ t ∈ w.sstables, t.id ≠ id) :
    Listed ((w.install f.table).flushTo j .rotate) := by
  have hpub : Uses j id := .inr (.inr (hf.installing j id hj hst))
  have huse : ∀ i, Uses { j with stage := .rotate } i → Uses j i :=
    uses_of_published rfl (by simp) (by simp)
  exact {
    nodup := by
      refine nodup_cons.mpr ⟨fun hm => ?_, h.nodup⟩
      obtain ⟨t, ht, he⟩ := mem_map.mp hm
      exact hnew t ht (he.trans hid)
    below := by
      intro t ht
      rcases mem_cons.mp ht with rfl | ht
      · exact hf.below f hmem
      · exact h.below t ht
    own := by
      intro k i hk hu t ht he
      cases hk
      rcases mem_cons.mp ht with rfl | ht
      · exact hf.own j i hj (huse i hu) f hmem he
      · exact h.own j i hj (huse i hu) t ht he
    output := by
      intro c i hc hi
      obtain ⟨hlt, hts, hus⟩ := h.output c i hc hi
      refine ⟨hlt, fun t ht => ?_, fun k n hk hu => ?_⟩
      · rcases mem_cons.mp ht with rfl | ht
        · exact hid ▸ hus j id hj hpub
        · exact hts t ht
      · cases hk
        exact hus j n hj (huse n hu) }

/-- The output is new to the list, so it does go in. -/
theorem Listed.splice_sstables (h : Listed w) (hc : w.cycle = some c)
    (ho : cycleOutput c.stage = some o) : (w.splice c.inputs o).sstables =
      o :: w.sstables.filter fun t => ¬ c.inputs.any (·.id = t.id) := by
  have hid : outputId c.stage = some o.id := by
    unfold cycleOutput at ho
    split at ho <;> first | (obtain rfl := Option.some.inj ho; simp [outputId, *]) | cases ho
  have hnew := (h.output c o.id hc hid).2.1
  simp only [World.splice]
  rw [if_neg]
  intro hany
  obtain ⟨t, ht, he⟩ := any_eq_true.mp hany
  exact hnew t (mem_filter.mp ht).1 (by simpa using he)

theorem listed_splice (h : Listed w) (hc : w.cycle = some c)
    (hst : c.stage = .removing o []) : Listed (w.splice c.inputs o) := by
  have hsst := h.splice_sstables hc (by rw [hst]; rfl)
  obtain ⟨hlt, hts, hus⟩ := h.output c o.id hc (by rw [hst]; rfl)
  have hrest : ∀ t ∈ w.sstables.filter (fun t => ¬ c.inputs.any (·.id = t.id)), t ∈ w.sstables :=
    fun t ht => (mem_filter.mp ht).1
  exact {
    nodup := by
      rw [hsst]
      refine nodup_cons.mpr ⟨fun hm => ?_, h.nodup.sublist (filter_sublist.map _)⟩
      obtain ⟨t, ht, he⟩ := mem_map.mp hm
      exact hts t (hrest t ht) he
    below := by
      rw [hsst]
      intro t ht
      rcases mem_cons.mp ht with rfl | ht
      · exact hlt
      · exact h.below t (hrest t ht)
    own := by
      rw [hsst]
      intro j i hj hu t ht he
      rcases mem_cons.mp ht with rfl | ht
      · exact absurd he.symm (hus j i hj hu)
      · exact h.own j i hj hu t (hrest t ht) he
    output := by intro c' id hc'; cases hc' }

/-- The ids in the list stay apart from those in use. -/
theorem listed_step (h : Listed w) (hf : Filed w) (hs : Step crc w a w')
    (hne : isReopen a = false) : Listed w' := by
  cases hs with
  | flushRecv hfl hq =>
    have huse : ∀ {f : FrozenTable} {ckpt id : Nat},
        ¬ Uses ⟨f, ckpt, .start, none, none, false⟩ id := by simp [Uses]
    exact { h with
      own := by
        intro j id hj hu
        cases hj
        exact absurd hu huse
      output := by
        intro c id hc hid
        obtain ⟨hlt, hts, _⟩ := h.output c id hc hid
        refine ⟨hlt, hts, fun j i hj hu => ?_⟩
        cases hj
        exact absurd hu huse }
  | flushBegin _ _ hp => exact listed_flushBegin h hp
  | flushAdd hj hst =>
    refine h.flushTo hj rfl rfl rfl rfl fun id hu => ?_
    rcases hu with hs | ⟨size, hs⟩ | hpub
    · cases hs
    · cases hs
    · exact .inr (.inl ⟨_, Option.some.inj hpub ▸ hst⟩)
  | flushWrite hj hst =>
    refine h.flushTo hj rfl rfl rfl rfl fun id hu => ?_
    rcases hu with hs | ⟨size, hs⟩ | hpub
    · cases hs
    · exact .inl ((FlushStage.add.inj hs).1 ▸ hst)
    · exact .inr (.inr hpub)
  | flushInstall hj hst hmem hid hnew => exact listed_flushInstall h hf hj hst hmem hid hnew
  | flushRotate hj =>
    refine h.flushTo hj rfl rfl rfl rfl (uses_of_published rfl ?_ ?_) <;> intros <;> split <;> simp
  | flushPurge hj =>
    exact { h with
      own := by intro j id hj'; cases hj'
      output := fun c id hc hid =>
        ⟨(h.output c id hc hid).1, (h.output c id hc hid).2.1, fun j i hj' => by cases hj'⟩ }
  | flushResume hj | flushAddFail hj | flushInstalled hj | flushInstallGone hj | flushMarker hj
  | flushAwait hj | flushCheckpointDone hj | flushCheckpoint hj | flushCheckpointFail hj
  | flushRetire hj | flushPurgeFail hj | flushFail hj =>
    exact h.flushTo hj rfl rfl rfl rfl (uses_of_published rfl (by simp) (by simp))
  | compactAllocate hc =>
    exact { h with
      below := fun t ht => Nat.lt_succ_of_lt (h.below t ht)
      output := by
        intro c' id hc' hid
        cases hc'
        cases hid
        -- the new id lies above every id in the list
        exact ⟨Nat.lt_succ_self _, fun t ht => Nat.ne_of_lt (h.below t ht),
          fun j i hj hu => Nat.ne_of_lt (hf.usesBelow j i hj hu)⟩ }
  | compactCapture | compactSample =>
    refine h.setCycle rfl rfl rfl fun c' id hc' hid => ?_
    cases hc'
    cases hid
  | compactWrite hc hst | compactAdd hc hst | compactRemove hc hst =>
    refine h.setCycle rfl rfl rfl fun c' id hc' hid => ?_
    cases hc'
    exact ⟨_, hc, by rw [hst]; exact hid⟩
  | compactAddFail | compactRemoveFail | compactAbort => exact h.setCycle rfl rfl rfl (by simp)
  | compactSplice hc hst => exact listed_splice h hc hst
  | reopen => cases hne
  | _ => exact { h with }

/-! ## What there is to find -/

/-- Every version a read may come across. -/
def heldEntries (w : World) : List Entry := w.sources.flatten

theorem mem_heldEntries : e ∈ heldEntries w ↔
    e ∈ w.active.map ∨ (∃ f ∈ w.immutables, e ∈ f.table.map) ∨ e ∈ inputRecords w.sstables := by
  simp [heldEntries, World.sources, inputRecords]

/-- The floor a cycle has sampled and not yet merged with. -/
def stageFloor : CycleStage → Option (Option Nat)
  | .sampled oldest => some oldest
  | .allocated oldest _ => some oldest
  | _ => none

/-- A running cycle takes nothing from reads at `s`. -/
structure Retains (s : Nat) (w : World) : Prop where
  floor : ∀ c oldest, w.cycle = some c → stageFloor c.stage = some oldest →
    FloorFits oldest (inputRecords c.inputs) s
  output : ∀ c o, w.cycle = some c → cycleOutput c.stage = some o →
    Covers s o.records (inputRecords c.inputs)

/-- Reads at `s` are right, and stay so through flush and compaction. -/
structure Readable (s : Nat) (w : World) : Prop where
  top : NewerAt s w.active.map (appliedEntries w)
  ordered : Ordered (NewerAt s) w
  kept : Covers s (heldEntries w) (appliedEntries w)
  installed : ∀ j, w.flush = some j → pastInstall j.stage = true →
    Covers s (inputRecords w.sstables) j.frozen.table.map

/-- No record is applied behind which a freeze has put a newer version that reads at `s`
see: such a version is in the active MemTable as well, or a still newer one is. -/
def ApplyAt (s : Nat) (w : World) (a : Act) : Prop :=
  ∀ r ∈ w.pending, a = .apply r.seq → ∀ e ∈ r.entries, ∀ e' ∈ appliedEntries w,
    e'.key = e.key → e.seq < e'.seq → e'.seq ≤ s →
    ∃ v ∈ w.active.map, Visible e.key s v ∧ e'.seq ≤ v.seq

/-- At a splice, the inputs are newer at `s` than the tables published since they were
captured. -/
def SpliceAt (s : Nat) (w : World) (a : Act) : Prop :=
  a = .compactSplice → ∀ c ∈ w.cycle, ∀ t ∈ w.sstables, (∀ i ∈ c.inputs, i.id ≠ t.id) →
    NewerAt s (inputRecords c.inputs) t.records

instance (s : Nat) (w : World) (a : Act) : Decidable (ApplyAt s w a) :=
  inferInstanceAs (Decidable (∀ r ∈ w.pending, _ → ∀ e ∈ r.entries, ∀ e' ∈ appliedEntries w,
    _ → _ → _ → ∃ v ∈ w.active.map, _ ∧ _))

instance (s : Nat) (w : World) (a : Act) : Decidable (SpliceAt s w a) :=
  inferInstanceAs (Decidable (_ → ∀ c ∈ w.cycle, ∀ t ∈ w.sstables, (∀ i ∈ c.inputs, _) → _))

theorem readable_init (s : Nat) (cfg : LsmConfig) : Readable s (World.init cfg) where
  top := by intro e he; cases he
  ordered := ordered_init cfg
  kept := by intro e he; cases he
  installed := by intro j hj; cases hj

theorem retains_idle (hc : w.cycle = none) : Retains s w where
  floor := by intro c oldest hc'; rw [hc] at hc'; cases hc'
  output := by intro c o hc'; rw [hc] at hc'; cases hc'

/-! ## Applying a record -/

/-- What is applied is not waiting, so a pending record's number is new to the MemTable. -/
theorem pending_fresh (hn : Numbered w) (hr : r ∈ w.pending)
    (he : e ∈ appliedEntries w) : e.seq ≠ r.seq := by
  intro hseq
  obtain ⟨r', hr', he⟩ := mem_appliedEntries.mp he
  obtain ⟨hlog, hnot, _⟩ := hn.pending r hr
  rw [entries_seq he] at hseq
  exact hnot (hn.unique (hn.applied r' hr').1 hlog hseq ▸ hr')

/-- The MemTable keeps what it has. -/
theorem active_applyRecord (hb : Base w) (hr : r ∈ w.pending)
    (he : e ∈ w.active.map) : e ∈ (w.applyRecord r).active.map :=
  applyWalOp_keeps he (pending_fresh hb.numbered hr (hb.sourced.active e he))

/-- **An apply keeps the active MemTable on top** if it brings nothing older than what a
freeze has put behind. -/
theorem top_applyRecord (h : NewerAt s w.active.map (appliedEntries w)) (hb : Base w)
    (hr : r ∈ w.pending) (hap : ApplyAt s w (.apply r.seq)) :
    NewerAt s (w.applyRecord r).active.map (appliedEntries (w.applyRecord r)) := by
  intro e he hes hv
  rw [appliedEntries_concat (r := r) rfl] at he
  rcases mem_append.mp he with he | he
  · obtain ⟨v, hv, hvis⟩ := hv
    rcases mem_applyWalOp hv with hnew | hold
    · by_cases hle : e.seq ≤ v.seq
      · exact ⟨v, hv, hvis, hle⟩
      · -- the record brings a version of the key that is older than `e`
        obtain ⟨x, hx, hxvis, hle'⟩ :=
          hap r hr rfl v hnew e he hvis.1.symm (by omega) hes
        exact ⟨x, active_applyRecord hb hr hx, ⟨hxvis.1.trans hvis.1, hxvis.2⟩, hle'⟩
    · obtain ⟨x, hx, hxvis, hle⟩ := h e he hes ⟨v, hold, hvis⟩
      exact ⟨x, active_applyRecord hb hr hx, hxvis, hle⟩
  · exact ⟨e, entries_mem_applyWalOp he, ⟨rfl, hes⟩, Nat.le_refl _⟩

theorem kept_applyRecord (h : Covers s (heldEntries w) (appliedEntries w)) (hb : Base w)
    (hr : r ∈ w.pending) :
    Covers s (heldEntries (w.applyRecord r)) (appliedEntries (w.applyRecord r)) := by
  have hheld : ∀ e ∈ heldEntries w, e ∈ heldEntries (w.applyRecord r) := by
    intro e he
    exact mem_heldEntries.mpr ((mem_heldEntries.mp he).imp_left (active_applyRecord hb hr))
  intro e he hes
  rw [appliedEntries_concat (r := r) rfl] at he
  rcases mem_append.mp he with he | he
  · exact (covers_of_subset hheld).trans h e he hes
  · exact ⟨e, mem_heldEntries.mpr (.inl (entries_mem_applyWalOp he)), ⟨rfl, hes⟩, Nat.le_refl _⟩

/-- A freeze moves versions from one source to the next. -/
theorem held_freeze (he : e ∈ heldEntries w) : e ∈ heldEntries w.freeze := by
  rcases mem_heldEntries.mp he with he | ⟨f, hf, he⟩ | he
  · exact mem_heldEntries.mpr (.inr (.inl ⟨_, mem_cons_self, he⟩))
  · exact mem_heldEntries.mpr (.inr (.inl ⟨f, mem_cons_of_mem _ hf, he⟩))
  · exact mem_heldEntries.mpr (.inr (.inr he))

/-! ## Flush and compaction -/

/-- A splice keeps what reads at `s` see of the list. -/
theorem splice_covers (h : Retains s w) (hl : Listed w) (hcy : Cycling w) (hc : w.cycle = some c)
    (ho : cycleOutput c.stage = some o) :
    Covers s (inputRecords (w.splice c.inputs o).sstables) (inputRecords w.sstables) := by
  rw [hl.splice_sstables hc ho]
  intro e he hes
  obtain ⟨t, ht, het⟩ := mem_inputRecords.mp he
  by_cases hin : ∃ i ∈ c.inputs, i.id = t.id
  · obtain ⟨i, hi, hid⟩ := hin
    obtain rfl : i = t := inj_on_of_nodup_map hl.nodup (hcy.inputs c hc i hi) ht hid
    obtain ⟨v, hv, hvis, hle⟩ := h.output c o hc ho e (mem_inputRecords.mpr ⟨i, hi, het⟩) hes
    exact ⟨v, mem_inputRecords.mpr ⟨o, mem_cons_self, hv⟩, hvis, hle⟩
  · have hstay : t ∈ w.sstables.filter fun t => ¬ c.inputs.any (·.id = t.id) := by
      refine mem_filter.mpr ⟨ht, ?_⟩
      simpa using fun i hi hid => hin ⟨i, hi, hid⟩
    exact ⟨e, mem_inputRecords.mpr ⟨t, mem_cons_of_mem _ hstay, het⟩, ⟨rfl, hes⟩,
      Nat.le_refl _⟩

/-- The only immutable that a retirement takes is the flushed one. -/
theorem immutable_of_uid {f : FrozenTable} (h : Queued w) (hj : w.flush = some j)
    (hf : f ∈ w.immutables) (huid : f.uid = j.frozen.uid) : f = j.frozen :=
  inj_on_of_nodup_map h.uids (h.immutables.subset hf) (job_mem_unflushed hj) huid

/-- **A flushed MemTable is retired** once its table covers it. -/
theorem retire_covers (h : Readable s w) (hq : Queued w) (hj : w.flush = some j)
    (hst : pastInstall j.stage = true) :
    Covers s (heldEntries ((w.retire j.frozen).flushTo j .purge)) (heldEntries w) := by
  intro e he hes
  have hself : e ∈ heldEntries ((w.retire j.frozen).flushTo j .purge) →
      ∃ v ∈ heldEntries ((w.retire j.frozen).flushTo j .purge), Visible e.key s v ∧ e.seq ≤ v.seq :=
    fun hm => ⟨e, hm, ⟨rfl, hes⟩, Nat.le_refl _⟩
  rcases mem_heldEntries.mp he with he | ⟨f, hf, he⟩ | he
  · exact hself (mem_heldEntries.mpr (.inl he))
  · by_cases huid : f.uid = j.frozen.uid
    · obtain rfl := immutable_of_uid hq hj hf huid
      obtain ⟨v, hv, hvis, hle⟩ := h.installed j hj hst e he hes
      exact ⟨v, mem_heldEntries.mpr (.inr (.inr hv)), hvis, hle⟩
    · refine hself (mem_heldEntries.mpr (.inr (.inl ⟨f, ?_, he⟩)))
      exact mem_filter.mpr ⟨hf, by simpa using huid⟩
  · exact hself (mem_heldEntries.mpr (.inr (.inr he)))

theorem held_splice (h : Retains s w) (hl : Listed w) (hcy : Cycling w) (hc : w.cycle = some c)
    (ho : cycleOutput c.stage = some o) :
    Covers s (heldEntries (w.splice c.inputs o)) (heldEntries w) := by
  intro e he hes
  rcases mem_heldEntries.mp he with he | he | he
  · exact ⟨e, mem_heldEntries.mpr (.inl he), ⟨rfl, hes⟩, Nat.le_refl _⟩
  · exact ⟨e, mem_heldEntries.mpr (.inr (.inl he)), ⟨rfl, hes⟩, Nat.le_refl _⟩
  · obtain ⟨v, hv, hvis, hle⟩ := splice_covers h hl hcy hc ho e he hes
    exact ⟨v, mem_heldEntries.mpr (.inr (.inr hv)), hvis, hle⟩

/-! ## Steps -/

theorem appliedEntries_marker (w : World) (seq ckpt : Nat) :
    appliedEntries (w.accountMarker seq ckpt) = appliedEntries w := by
  rw [appliedEntries_concat (r := ⟨seq, .checkpointMarker ckpt⟩) rfl]
  exact append_nil _

theorem top_step (h : NewerAt s w.active.map (appliedEntries w)) (hb : Base w)
    (hs : Step crc w a w') (hne : isReopen a = false) (hap : ApplyAt s w a) :
    NewerAt s w'.active.map (appliedEntries w') := by
  cases hs with
  | applyRefused hr | apply hr => exact top_applyRecord h hb hr hap
  | applyFreeze =>
    rintro e _ _ ⟨v, hv, _⟩
    cases hv
  | @flushAwait j p =>
    show NewerAt s w.active.map (appliedEntries (w.accountMarker p.seq j.ckpt))
    rw [appliedEntries_marker]
    exact h
  | reopen => cases hne
  | _ => exact h

/-- A freeze puts the MemTable where it belongs. -/
theorem freezeIn_of_top (h : NewerAt s w.active.map (appliedEntries w)) (hb : Base w)
    (hap : ApplyAt s w a) : FreezeIn (NewerAt s) w a :=
  fun _ hr ha _ _ => top_applyRecord h hb hr (ha ▸ hap)

/-- A splice puts the output where it belongs. -/
theorem SpliceAt.spliceIn (h : SpliceAt s w a) (hr : Retains s w) (hcy : Cycling w) :
    SpliceIn (NewerAt s) w a := by
  intro c o ha hc hst t ht hne
  have ho : cycleOutput c.stage = some o := by rw [hst]; rfl
  obtain ⟨oldest, hmerge⟩ := hcy.output c o hc ho
  refine (h ha c hc t ht hne).covers (fun e he => ?_) (hr.output c o hc ho)
  rw [hmerge] at he
  exact merge_subset he

theorem kept_step (h : Readable s w) (hr : Retains s w) (hb : Base w) (hl : Listed w)
    (hs : Step crc w a w') (hne : isReopen a = false) :
    Covers s (heldEntries w') (appliedEntries w') := by
  cases hs with
  | applyRefused hr | apply hr => exact kept_applyRecord h.kept hb hr
  | applyFreeze hr =>
    exact (covers_of_subset fun _ => held_freeze).trans (kept_applyRecord h.kept hb hr)
  | @flushInstall j f id =>
    refine Covers.trans (covers_of_subset fun e he => ?_) h.kept
    rcases mem_heldEntries.mp he with he | he | he
    · exact mem_heldEntries.mpr (.inl he)
    · exact mem_heldEntries.mpr (.inr (.inl he))
    · obtain ⟨t, ht, he⟩ := mem_inputRecords.mp he
      exact mem_heldEntries.mpr
        (.inr (.inr (mem_inputRecords.mpr ⟨t, mem_cons_of_mem _ ht, he⟩)))
  | @flushAwait j p =>
    show Covers s (heldEntries w) (appliedEntries (w.accountMarker p.seq j.ckpt))
    rw [appliedEntries_marker]
    exact h.kept
  | flushRetire hj hst => exact (retire_covers h hb.queued hj (by rw [hst]; rfl)).trans h.kept
  | compactSplice hc hst =>
    exact (held_splice hr hl hb.cycling hc (by rw [hst]; rfl)).trans h.kept
  | reopen => cases hne
  | _ => exact h.kept

theorem installed_step (h : Readable s w) (hr : Retains s w) (hb : Base w) (hl : Listed w)
    (hs : Step crc w a w') (hne : isReopen a = false) :
    ∀ j, w'.flush = some j → pastInstall j.stage = true →
      Covers s (inputRecords w'.sstables) j.frozen.table.map := by
  intro k hk hpast
  cases hs with
  | @flushInstall j f id hj hst hmem hid =>
    cases hk
    have hown := hb.filed.own j id hj (.inr (.inr (hb.filed.installing j id hj hst))) f hmem hid
    refine covers_of_subset fun e he => mem_inputRecords.mpr ⟨f.table, mem_cons_self, ?_⟩
    rw [hown]
    exact he
  | @flushInstalled j t id hj hst hmem hid =>
    -- put there by an earlier attempt, and still the same table
    cases hk
    have hown := hl.own j id hj (.inr (.inr (hb.filed.installing j id hj hst))) t hmem hid
    refine covers_of_subset fun e he => mem_inputRecords.mpr ⟨t, hmem, ?_⟩
    rw [hown]
    exact he
  | flushRotate hj hst | flushMarker hj hst | flushAwait hj hst | flushCheckpointDone hj hst
  | flushCheckpoint hj hst | flushRetire hj hst =>
    have hcov := h.installed _ hj (by rw [hst]; rfl)
    cases hk
    exact hcov
  | flushRecv | flushBegin | flushResume | flushWrite | flushAdd | flushAddFail
  | flushInstallGone | flushCheckpointFail | flushPurgeFail | flushFail =>
    cases hk
    cases hpast
  | flushPurge => cases hk
  | compactSplice hc hst =>
    exact (splice_covers hr hl hb.cycling hc (by rw [hst]; rfl)).trans (h.installed k hk hpast)
  | reopen => cases hne
  | _ => exact h.installed k hk hpast

/-- **Reads at `s` stay right** in every step of one life of the process that applies and
splices in order at `s`. -/
theorem readable_step (h : Readable s w) (hr : Retains s w) (hb : Base w) (hl : Listed w)
    (hs : Step crc w a w') (hne : isReopen a = false) (hap : ApplyAt s w a)
    (hsp : SpliceAt s w a) : Readable s w' where
  top := top_step h.top hb hs hne hap
  ordered := ordered_step h.ordered (newerAt_order s) hb hs hne (freezeIn_of_top h.top hb hap)
    (hsp.spliceIn hr hb.cycling)
  kept := kept_step h hr hb hl hs hne
  installed := installed_step h hr hb hl hs hne

/-- **A cycle goes on retaining** what it retains once its sample fits. -/
theorem retains_step (h : Retains s w) (hs : Step crc w a w') (hne : isReopen a = false)
    (hsample : a = .compactSample → ∀ c ∈ w.cycle,
      FloorFits w.registry.oldest (inputRecords c.inputs) s) : Retains s w' := by
  cases hs with
  | compactCapture =>
    exact {
      floor := by
        intro c oldest hc hf
        cases hc
        cases hf
      output := by
        intro c o hc ho
        cases hc
        cases ho }
  | @compactSample c hc hst =>
    exact {
      floor := by
        intro c' oldest hc' hf
        cases hc'
        cases hf
        -- the floor is sampled here and nowhere else
        exact hsample rfl c hc
      output := by
        intro c' o hc' ho
        cases hc'
        cases ho }
  | @compactAllocate c oldest hc hst =>
    exact {
      floor := by
        intro c' oldest' hc' hf
        cases hc'
        exact h.floor c oldest' hc (by rw [hst]; exact hf)
      output := by
        intro c' o hc' ho
        cases hc'
        cases ho }
  | @compactWrite c oldest size id hc hst =>
    exact {
      floor := by
        intro c' oldest' hc' hf
        cases hc'
        cases hf
      output := by
        intro c' o hc' ho
        cases hc'
        cases ho
        exact merge_covers (h.floor c oldest hc (by rw [hst]; rfl)) }
  | @compactAdd c _ _ _ _ hc hst | @compactRemove c _ _ _ _ _ hc hst =>
    exact {
      floor := by
        intro c' oldest' hc' hf
        cases hc'
        cases hf
      output := by
        intro c' o hc' ho
        cases hc'
        exact h.output c o hc (by rw [hst]; exact ho) }
  | compactAddFail | compactRemoveFail | compactSplice | compactAbort => exact retains_idle rfl
  | reopen => cases hne
  | _ => exact { h with }

/-- Above everything applied, one read is as good as another. -/
theorem Readable.mono {s' : Nat} (h : Readable s w) (hb : Base w)
    (hs : ∀ e ∈ appliedEntries w, e.seq ≤ s) (hle : s ≤ s') : Readable s' w where
  top := h.top.mono (fun e he => hs e (hb.sourced.active e he)) hs hle
  ordered := List.Pairwise.imp_of_mem
    (fun ht hu hR => hR.mono (fun e he => hs e (frozenSources_applied hb.sourced _ ht e he))
      (fun e he => hs e (frozenSources_applied hb.sourced _ hu e he)) hle) h.ordered
  kept := h.kept.mono hs hle
  installed := fun j hj hst => (h.installed j hj hst).mono
    (fun e he => hs e (hb.sourced.frozen _ (job_mem_unflushed hj) e he)) hle

/-- The inputs of a cycle are tables of the list. -/
theorem inputs_applied (hb : Base w) (hc : w.cycle = some c) :
    ∀ e ∈ inputRecords c.inputs, e ∈ appliedEntries w := by
  intro e he
  obtain ⟨t, ht, he⟩ := mem_inputRecords.mp he
  exact hb.sourced.tables t (hb.cycling.inputs c hc t ht) e he

theorem Retains.mono {s' : Nat} (h : Retains s w) (hb : Base w)
    (hs : ∀ e ∈ appliedEntries w, e.seq ≤ s) (hle : s ≤ s') : Retains s' w where
  floor := fun _ oldest hc _ =>
    floorFits_of_top oldest fun e he => (hs e (inputs_applied hb hc e he)).trans hle
  output := fun c o hc ho =>
    (h.output c o hc ho).mono (fun e he => hs e (inputs_applied hb hc e he)) hle

/-! ## The answer -/

theorem lookup_eq_firstHit (w : World) (key : Key) (asOf : Nat) :
    w.lookup key asOf = firstHit w.sources key asOf := by
  unfold World.lookup World.sources firstHit
  rw [findSome?_cons, findSome?_append, findSome?_map, findSome?_map,
    MemTable.getAsOf_eq_best]
  have himm : (w.immutables.findSome? fun f => f.table.getAsOf key asOf) =
      w.immutables.findSome? ((fun es => best es key asOf) ∘ fun f => f.table.map) :=
    congrArg (w.immutables.findSome? ·) (funext fun f => MemTable.getAsOf_eq_best _ _ _)
  rw [himm]
  cases best w.active.map key asOf <;> rfl

theorem heldEntries_applied (hb : Base w) (he : e ∈ heldEntries w) : e ∈ appliedEntries w := by
  rcases mem_heldEntries.mp he with he | ⟨f, hf, he⟩ | he
  · exact hb.sourced.active e he
  · exact hb.sourced.frozen f (hb.queued.immutables.subset hf) e he
  · obtain ⟨t, ht, he⟩ := mem_inputRecords.mp he
    exact hb.sourced.tables t ht e he

/-- The sources of a read are in order. -/
theorem Readable.sources_ordered (h : Readable s w) (hb : Base w) :
    w.sources.Pairwise (NewerAt s) := by
  have hsub : (w.immutables.map (·.table.map) ++ w.sstables.map (·.records)).Sublist
      (frozenSources w) := (hb.queued.immutables.map _).append_right _
  refine pairwise_cons.mpr ⟨fun u hu => ?_, h.ordered.sublist hsub⟩
  exact (newerAt_order s).subset_right h.top (frozenSources_applied hb.sourced u (hsub.subset hu))

/-- Sources in order at `s` that cover `es` answer for it. -/
theorem lookup_eq_best_of {es : List Entry} (hord : w.sources.Pairwise (NewerAt s))
    (hcoh : Coherent es) (hsub : ∀ e ∈ heldEntries w, e ∈ es) (hcov : Covers s (heldEntries w) es)
    (key : Key) : w.lookup key s = best es key s := by
  rw [lookup_eq_firstHit, firstHit_eq_best_at (hcoh.subset hsub) hord]
  exact best_eq_of_covers hcoh hsub hcov key

/-- **A read at `s` finds the newest version applied so far** that it may see. -/
theorem Readable.lookup_eq_best (h : Readable s w) (hb : Base w) (key : Key) :
    w.lookup key s = best (appliedEntries w) key s :=
  lookup_eq_best_of (h.sources_ordered hb) (coherent_applied hb.numbered)
    (fun _ => heldEntries_applied hb) h.kept key

end RubixDb.Proof
