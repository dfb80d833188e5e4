import RubixDb.Proof.Durability

/-!
# The manifest as a ledger of tables

With compaction, tables leave the manifest as well as enter it. As long as no append
fails, its bytes are the frames of the edits made so far, and the state they replay to
is tied to the running process:

* a live table has its file, and a file is unlinked only once its table is not live;
* an id a thread is still working on has never been recorded, and no two threads work on
  the same one;
* the tables of the list are recorded, so their removal replays.
-/

namespace RubixDb.Proof

open Lib List

variable {i lo hi id ckpt : Nat} {size : UInt64} {w₁ : World} {j' j : FlushJob} {stage : FlushStage}
    {c : Cycle} {o : SsTable} {m : Manifest}

variable {crc : Bytes → UInt32} {w w' : World} {a : Act} {st st' : ManifestState}

/-- The step's append to the manifest, if it makes one, succeeds. -/
def NoAppendFault (a : Act) : Prop := ∀ fault ∈ appendFault a, fault = .none

instance (a : Act) : Decidable (NoAppendFault a) :=
  inferInstanceAs (Decidable (∀ fault ∈ appendFault a, _))

/-- The flush thread has taken the id and not recorded it. -/
def JobId (j : FlushJob) (id : Nat) : Prop := j.stage = .write id ∨ ∃ size, j.stage = .add id size

/-- The cycle has taken the id and not recorded it. -/
def CycleId (c : Cycle) (id : Nat) : Prop :=
  (∃ oldest, c.stage = .allocated oldest id) ∨ ∃ o size, c.stage = .written o size ∧ o.id = id

/-- The manifest's state `st` and the running process. -/
structure Ledger (w : World) (st : ManifestState) : Prop where
  below : ∀ id ∈ st.everAdded, id < w.nextId
  present : ∀ id, st.isLive id = true → ∃ f ∈ w.files, f.table.id = id
  tables : ∀ t ∈ w.sstables, t.id ∈ st.everAdded
  garbage : ∀ id ∈ w.garbage, id ∈ st.everAdded ∧ st.isLive id = false
  fresh : ∀ j id, w.flush = some j → JobId j id → id ∉ st.everAdded
  adding : ∀ j id size, w.flush = some j → j.stage = .add id size →
    ∃ f ∈ w.files, f.table.id = id
  published : ∀ j id, w.flush = some j → j.published = some id → id ∈ st.everAdded
  output : ∀ c id, w.cycle = some c → CycleId c id → id ∉ st.everAdded ∧ id < w.nextId
  apart : ∀ j c id i, w.flush = some j → w.cycle = some c → JobId j id → CycleId c i → id ≠ i
  written : ∀ c o size, w.cycle = some c → c.stage = .written o size →
    ∃ f ∈ w.files, f.table.id = o.id
  removing : ∀ c o rest, w.cycle = some c → c.stage = .removing o rest →
    o.id ∈ st.everAdded ∧ (∀ id ∈ rest, id ∈ st.everAdded) ∧
      ∀ t ∈ c.inputs, t.id ∈ rest ∨ st.isLive t.id = false

/-- Nothing is running. -/
theorem ledger_idle (hj : w.flush = none) (hc : w.cycle = none) (hg : w.garbage = [])
    (hbelow : ∀ id ∈ st.everAdded, id < w.nextId)
    (hpresent : ∀ id, st.isLive id = true → ∃ f ∈ w.files, f.table.id = id)
    (htables : ∀ t ∈ w.sstables, t.id ∈ st.everAdded) : Ledger w st where
  below := hbelow
  present := hpresent
  tables := htables
  garbage := by intro id hid; rw [hg] at hid; cases hid
  fresh := by intro j id hj'; rw [hj] at hj'; cases hj'
  adding := by intro j id size hj'; rw [hj] at hj'; cases hj'
  published := by intro j id hj'; rw [hj] at hj'; cases hj'
  output := by intro c id hc'; rw [hc] at hc'; cases hc'
  apart := by intro j c id i hj'; rw [hj] at hj'; cases hj'
  written := by intro c o size hc'; rw [hc] at hc'; cases hc'
  removing := by intro c o rest hc'; rw [hc] at hc'; cases hc'

/-! ## Edits -/

theorem mem_everAdded_add {size : Nat} (h : st.apply (.addSstable i lo hi size) = .ok st')
    (id : Nat) : id ∈ st'.everAdded ↔ id = i ∨ id ∈ st.everAdded := by
  cases h
  exact mem_cons

theorem apply_remove (hi : i ∈ st.everAdded) :
    ∃ st', st.apply (.removeSstable i) = .ok st' ∧ st'.everAdded = st.everAdded ∧
      (∀ id, st'.isLive id = true ↔ st.isLive id = true ∧ id ≠ i) ∧
      st'.checkpointSeq = st.checkpointSeq := by
  refine ⟨{ st with liveSstables := st.liveSstables.filter (·.1 ≠ i) }, if_pos hi, rfl,
    fun id => ?_, rfl⟩
  simp only [isLive_iff, mem_filter]
  constructor
  · rintro ⟨l, ⟨hl, hne⟩, rfl⟩
    exact ⟨⟨l, hl, rfl⟩, by simpa using hne⟩
  · rintro ⟨⟨l, hl, rfl⟩, hne⟩
    exact ⟨l, ⟨hl, by simpa using hne⟩, rfl⟩

/-! ## Steps without an append -/

theorem exists_mem_concat {files : List SstFile} {f : SstFile}
    (h : ∃ g ∈ files, g.table.id = i) : ∃ g ∈ files ++ [f], g.table.id = i := by
  obtain ⟨g, hg, he⟩ := h
  exact ⟨g, mem_append_left _ hg, he⟩

section

variable (h : Ledger w st)
include h

/-- No job, or one that holds no id that is not recorded. -/
theorem Ledger.withJob
    (hw : w₁.nextId = w.nextId ∧ w₁.files = w.files ∧ w₁.sstables = w.sstables ∧
      w₁.garbage = w.garbage ∧ w₁.cycle = w.cycle)
    (hjob : ∀ j, w₁.flush = some j → (∀ id, ¬ JobId j id) ∧
      ∀ id, j.published = some id → id ∈ st.everAdded) : Ledger w₁ st := by
  obtain ⟨hn, hf, ht, hg, hc⟩ := hw
  exact {
    below := hn ▸ h.below
    present := hf ▸ h.present
    tables := ht ▸ h.tables
    garbage := hg ▸ h.garbage
    fresh := fun j id hj hid => absurd hid ((hjob j hj).1 id)
    adding := fun j id size hj hs => absurd (.inr ⟨size, hs⟩) ((hjob j hj).1 id)
    published := fun j id hj => (hjob j hj).2 id
    output := hn ▸ hc ▸ h.output
    apart := fun j c id i hj _ hid => absurd hid ((hjob j hj).1 id)
    written := hf ▸ hc ▸ h.written
    removing := hc ▸ h.removing }

/-- The flush thread goes on holding no id that is not recorded. -/
theorem Ledger.flushTo
    (hw : w₁.nextId = w.nextId ∧ w₁.files = w.files ∧ w₁.sstables = w.sstables ∧
      w₁.garbage = w.garbage ∧ w₁.cycle = w.cycle)
    (hst : ∀ id, ¬ JobId { j' with stage := stage } id)
    (hpub : ∀ id, j'.published = some id → id ∈ st.everAdded) :
    Ledger (w₁.flushTo j' stage) st := by
  refine h.withJob hw fun k hk => ?_
  cases hk
  exact ⟨hst, hpub⟩

/-- A cycle starts, fails, or goes on before it has taken an id. -/
theorem Ledger.setCycle {c : Option Cycle}
    (hw : w₁.nextId = w.nextId ∧ w₁.files = w.files ∧ w₁.sstables = w.sstables ∧
      w₁.garbage = w.garbage ∧ w₁.flush = w.flush)
    (hc : ∀ c', c = some c' → (∀ id, ¬ CycleId c' id) ∧ ∀ o rest, c'.stage ≠ .removing o rest) :
    Ledger (w₁.setCycle c) st := by
  obtain ⟨hn, hf, ht, hg, hj⟩ := hw
  exact {
    below := hn ▸ h.below
    present := hf ▸ h.present
    tables := ht ▸ h.tables
    garbage := hg ▸ h.garbage
    fresh := hj ▸ h.fresh
    adding := hf ▸ hj ▸ h.adding
    published := hj ▸ h.published
    output := fun c' id hc' hid => absurd hid ((hc c' hc').1 id)
    apart := fun j c' id i _ hc' _ hid => absurd hid ((hc c' hc').1 i)
    written := fun c' o size hc' hs => absurd (.inr ⟨o, size, hs, rfl⟩) ((hc c' hc').1 o.id)
    removing := fun c' o rest hc' hs => absurd hs ((hc c' hc').2 o rest) }

/-- A thread takes the next id; nothing recorded has it. -/
theorem Ledger.flushBegin (hp : j.published = none) :
    Ledger (w.takeId.flushTo j (.write w.nextId)) st := by
  have hid : ∀ id, JobId { j with stage := .write w.nextId } id → id = w.nextId := by
    rintro id (hs | ⟨size, hs⟩)
    · exact (FlushStage.write.inj hs).symm
    · cases hs
  exact { h with
    below := fun id hmem => Nat.lt_succ_of_lt (h.below id hmem)
    fresh := by
      intro k id hk hid' hmem
      cases hk
      obtain rfl := hid id hid'
      exact Nat.lt_irrefl _ (h.below _ hmem)
    adding := by
      intro k id size hk hs
      cases hk
      cases hs
    published := by
      intro k id hk hpub
      cases hk
      have hpub' : j.published = some id := hpub
      rw [hp] at hpub'
      cases hpub'
    output := fun c id hc hid' =>
      ⟨(h.output c id hc hid').1, Nat.lt_succ_of_lt (h.output c id hc hid').2⟩
    apart := by
      intro k c id i hk hc hid' hi
      cases hk
      obtain rfl := hid id hid'
      exact (Nat.ne_of_lt (h.output c i hc hi).2).symm }

theorem Ledger.flushWrite (hj : w.flush = some j) (hst : j.stage = .write id) :
    Ledger ((w.addFile ⟨writeFromMemtable j.frozen.table id, size⟩).flushTo j (.add id size))
      st := by
  have hid : ∀ i, JobId { j with stage := .add id size } i → i = id := by
    rintro i (hs | ⟨_, hs⟩)
    · cases hs
    · exact (FlushStage.add.inj hs).1.symm
  exact { h with
    present := fun i hi => exists_mem_concat (h.present i hi)
    fresh := by
      intro k i hk hi
      cases hk
      exact hid i hi ▸ h.fresh j id hj (.inl hst)
    adding := by
      intro k i sz hk hs
      cases hk
      obtain rfl := hid i (.inr ⟨sz, hs⟩)
      exact ⟨_, mem_append_right _ (mem_singleton_self _), rfl⟩
    published := by
      intro k i hk hp
      cases hk
      exact h.published j i hj hp
    apart := by
      intro k c i n hk hc hi hn
      cases hk
      exact hid i hi ▸ h.apart j c id n hj hc (.inl hst) hn
    written := fun c o sz hc hs => exists_mem_concat (h.written c o sz hc hs) }

theorem Ledger.compactAllocate {oldest : Option Nat} (hf : Filed w) :
    Ledger (w.takeId.setCycle (some ⟨c.inputs, .allocated oldest w.nextId⟩)) st := by
  have hid : ∀ id, CycleId ⟨c.inputs, .allocated oldest w.nextId⟩ id → id = w.nextId := by
    rintro id (⟨_, hs⟩ | ⟨_, _, hs, _⟩)
    · exact (CycleStage.allocated.inj hs).2.symm
    · cases hs
  exact { h with
    below := fun id hmem => Nat.lt_succ_of_lt (h.below id hmem)
    output := by
      intro c' id hc' hid'
      cases hc'
      obtain rfl := hid id hid'
      exact ⟨fun hmem => Nat.lt_irrefl _ (h.below _ hmem), Nat.lt_succ_self _⟩
    apart := by
      intro j c' id i hj hc' hid' hi
      cases hc'
      obtain rfl := hid i hi
      have huse : Uses j id := hid'.imp_right .inl
      exact Nat.ne_of_lt (hf.usesBelow j id hj huse)
    written := by
      intro c' o size hc' hs
      cases hc'
      cases hs
    removing := by
      intro c' o rest hc' hs
      cases hc'
      cases hs }

theorem Ledger.compactWrite {oldest : Option Nat} (hc : w.cycle = some c)
    (hst : c.stage = .allocated oldest id) :
    Ledger ((w.addFile ⟨mergeTable c.inputs oldest id, size⟩).setCycle
      (some ⟨c.inputs, .written (mergeTable c.inputs oldest id) size⟩)) st := by
  have hid : ∀ i, CycleId ⟨c.inputs, .written (mergeTable c.inputs oldest id) size⟩ i → i = id := by
    rintro i (⟨_, hs⟩ | ⟨o, _, hs, rfl⟩)
    · cases hs
    · rw [← (CycleStage.written.inj hs).1]
      rfl
  exact { h with
    present := fun i hi => exists_mem_concat (h.present i hi)
    adding := fun j i sz hj hs => exists_mem_concat (h.adding j i sz hj hs)
    output := by
      intro c' i hc' hi
      cases hc'
      exact hid i hi ▸ h.output c id hc (.inl ⟨oldest, hst⟩)
    apart := by
      intro j c' i n hj hc' hi hn
      cases hc'
      exact hid n hn ▸ h.apart j c i id hj hc hi (.inl ⟨oldest, hst⟩)
    written := by
      intro c' o sz hc' hs
      cases hc'
      obtain ⟨rfl, _⟩ := CycleStage.written.inj hs
      exact ⟨_, mem_append_right _ (mem_singleton_self _), rfl⟩
    removing := by
      intro c' o rest hc' hs
      cases hc'
      cases hs }

/-- The inputs of a cycle leave the list once none of them is live. -/
theorem Ledger.splice {output : SsTable} (hcy : Cycling w) (hc : w.cycle = some c)
    (hst : c.stage = .removing output []) : Ledger (w.splice c.inputs output) st := by
  obtain ⟨hout, _, hdead⟩ := h.removing c output [] hc hst
  exact { h with
    tables := by
      intro t ht
      rcases mem_splice ht with rfl | ⟨ht, _⟩
      · exact hout
      · exact h.tables t ht
    garbage := by
      intro id hid
      rcases mem_append.mp hid with hid | hid
      · exact h.garbage id hid
      · obtain ⟨t, ht, rfl⟩ := mem_map.mp hid
        exact ⟨h.tables t (hcy.inputs c hc t ht), (hdead t ht).resolve_left (by simp)⟩
    output := by intro c' id hc'; cases hc'
    apart := by intro j c' id i _ hc'; cases hc'
    written := by intro c' o size hc'; cases hc'
    removing := by intro c' o rest hc'; cases hc' }

/-- Only files of tables that are not live are unlinked. -/
theorem Ledger.unlink (hid : id ∈ w.garbage) :
    Ledger { w with
      files := w.files.filter (·.table.id ≠ id)
      garbage := w.garbage.filter (· ≠ id) } st := by
  obtain ⟨hever, hdead⟩ := h.garbage id hid
  have hkeep : ∀ {i : Nat}, i ≠ id → (∃ f ∈ w.files, f.table.id = i) →
      ∃ f ∈ w.files.filter (·.table.id ≠ id), f.table.id = i := by
    rintro i hne ⟨f, hf, rfl⟩
    exact ⟨f, mem_filter.mpr ⟨hf, by simpa using hne⟩, rfl⟩
  exact { h with
    present := by
      intro i hi
      refine hkeep (fun he => ?_) (h.present i hi)
      rw [he, hdead] at hi
      cases hi
    garbage := fun i hi => h.garbage i (mem_filter.mp hi).1
    adding := by
      intro j i size hj hs
      refine hkeep (fun he => ?_) (h.adding j i size hj hs)
      exact h.fresh j i hj (.inr ⟨size, hs⟩) (he ▸ hever)
    written := by
      intro c o size hc hs
      refine hkeep (fun he => ?_) (h.written c o size hc hs)
      exact (h.output c o.id hc (.inr ⟨o, size, hs, rfl⟩)).1 (he ▸ hever) }

/-! ## Steps with an append -/

/-- A table is recorded under an id no thread holds any more. -/
theorem Ledger.record {size : Nat} (hcy : Cycling w)
    (happ : st.apply (.addSstable id lo hi size) = .ok st') (hid : id < w.nextId)
    (hfile : ∃ f ∈ w.files, f.table.id = id) (hfresh : id ∉ st.everAdded)
    (hjob : ∀ j, w.flush = some j → ¬ JobId j id) (hcyc : ∀ c, w.cycle = some c → ¬ CycleId c id) :
    Ledger w st' := by
  have hever : ∀ i ∈ st.everAdded, i ∈ st'.everAdded :=
    fun i hi => (mem_everAdded_add happ i).mpr (.inr hi)
  -- the edit makes one id known and live, and no other
  have hnew : ∀ i ∈ st'.everAdded, i ≠ id → i ∈ st.everAdded :=
    fun i hi hne => ((mem_everAdded_add happ i).mp hi).resolve_left hne
  have hdead : ∀ i ∈ st.everAdded, st.isLive i = false → st'.isLive i = false := by
    intro i hie hi
    rw [Bool.eq_false_iff] at hi ⊢
    exact fun hl => ((isLive_add happ i).mp hl).elim hi fun he => hfresh (he ▸ hie)
  exact {
    below := fun i hi => by
      rcases (mem_everAdded_add happ i).mp hi with rfl | hi
      · exact hid
      · exact h.below i hi
    present := fun i hi => by
      rcases (isLive_add happ i).mp hi with hi | rfl
      · exact h.present i hi
      · exact hfile
    tables := fun t ht => hever _ (h.tables t ht)
    garbage := fun i hi =>
      ⟨hever i (h.garbage i hi).1, hdead i (h.garbage i hi).1 (h.garbage i hi).2⟩
    fresh := fun j i hj hi hmem =>
      h.fresh j i hj hi (hnew i hmem fun he => hjob j hj (he ▸ hi))
    adding := h.adding
    published := fun j i hj hp => hever i (h.published j i hj hp)
    output := fun c i hc hi =>
      ⟨fun hmem => (h.output c i hc hi).1 (hnew i hmem fun he => hcyc c hc (he ▸ hi)),
        (h.output c i hc hi).2⟩
    apart := h.apart
    written := h.written
    removing := fun c o rest hc hs => by
      obtain ⟨ho, hrest, hin⟩ := h.removing c o rest hc hs
      refine ⟨hever _ ho, fun i hi => hever i (hrest i hi), fun t ht => ?_⟩
      exact (hin t ht).imp_right (hdead t.id (h.tables t (hcy.inputs c hc t ht))) }

/-- A table is taken out. -/
theorem Ledger.unrecord (hever : st'.everAdded = st.everAdded)
    (hlive : ∀ id, st'.isLive id = true ↔ st.isLive id = true ∧ id ≠ i) : Ledger w st' := by
  have hdead : ∀ id, st.isLive id = false → st'.isLive id = false := by
    intro id hid
    rw [Bool.eq_false_iff] at hid ⊢
    exact fun hl => hid ((hlive id).mp hl).1
  exact {
    below := by rw [hever]; exact h.below
    present := fun id hid => h.present id ((hlive id).mp hid).1
    tables := by rw [hever]; exact h.tables
    garbage := fun id hid => ⟨hever ▸ (h.garbage id hid).1, hdead id (h.garbage id hid).2⟩
    fresh := by rw [hever]; exact h.fresh
    adding := h.adding
    published := by rw [hever]; exact h.published
    output := by rw [hever]; exact h.output
    apart := h.apart
    written := h.written
    removing := fun c o rest hc hs => by
      obtain ⟨ho, hrest, hin⟩ := h.removing c o rest hc hs
      rw [hever]
      exact ⟨ho, hrest, fun t ht => (hin t ht).imp_right (hdead t.id)⟩ }

/-- Nothing about tables changes. -/
theorem Ledger.congr (hever : st'.everAdded = st.everAdded)
    (hlive : st'.liveSstables = st.liveSstables) : Ledger w st' := by
  have hl : ∀ id, st'.isLive id = st.isLive id := fun id => by
    rw [ManifestState.isLive, hlive]
    rfl
  exact { h with
    below := by rw [hever]; exact h.below
    present := fun id hid => h.present id (hl id ▸ hid)
    tables := by rw [hever]; exact h.tables
    garbage := fun id hid => by rw [hever, hl id]; exact h.garbage id hid
    fresh := by rw [hever]; exact h.fresh
    published := by rw [hever]; exact h.published
    output := by rw [hever]; exact h.output
    removing := fun c o rest hc hs => by
      obtain ⟨ho, hrest, hin⟩ := h.removing c o rest hc hs
      rw [hever]
      exact ⟨ho, hrest, fun t ht => by rw [hl t.id]; exact hin t ht⟩ }

/-- The cycle takes out its inputs one after another. -/
theorem Ledger.toRemoving {inputs : List SsTable} {rest : List Nat}
    (hw : w₁.nextId = w.nextId ∧ w₁.files = w.files ∧ w₁.sstables = w.sstables ∧
      w₁.garbage = w.garbage ∧ w₁.flush = w.flush) (ho : o.id ∈ st.everAdded)
    (hrest : ∀ id ∈ rest, id ∈ st.everAdded)
    (hin : ∀ t ∈ inputs, t.id ∈ rest ∨ st.isLive t.id = false) :
    Ledger (w₁.setCycle (some ⟨inputs, .removing o rest⟩)) st := by
  have hnone : Ledger (w₁.setCycle none) st := h.setCycle hw (by simp)
  have hid : ∀ id, ¬ CycleId ⟨inputs, .removing o rest⟩ id := by
    rintro id (⟨_, hs⟩ | ⟨_, _, hs, _⟩) <;> cases hs
  exact { hnone with
    output := by
      intro c id hc hi
      cases hc
      exact absurd hi (hid id)
    apart := by
      intro j c id i _ hc _ hi
      cases hc
      exact absurd hi (hid i)
    written := by
      intro c o' size hc hs
      cases hc
      cases hs
    removing := by
      intro c o' rest' hc hs
      cases hc
      obtain ⟨rfl, rfl⟩ := CycleStage.removing.inj hs
      exact ⟨ho, hrest, hin⟩ }

theorem Ledger.flushAdd {sz : Nat} (hcy : Cycling w) (hf : Filed w) (hj : w.flush = some j)
    (hst : j.stage = .add id size) (happ : st.apply (.addSstable id lo hi sz) = .ok st') :
    Ledger ((w.setManifest m).flushTo { j with published := some id } (.install id)) st' := by
  have hid : JobId j id := .inr ⟨size, hst⟩
  -- the id is recorded between giving it up and publishing it
  have hidle : Ledger (w.flushTo j .start) st := by
    refine h.flushTo ⟨rfl, rfl, rfl, rfl, rfl⟩ ?_ (h.published j · hj)
    rintro i (hs | ⟨_, hs⟩) <;> cases hs
  have hrec : Ledger (w.flushTo j .start) st' := by
    refine hidle.record { hcy with } happ (hf.usesBelow j id hj (.inr (.inl ⟨size, hst⟩)))
      (h.adding j id size hj hst) (h.fresh j id hj hid) (fun k hk => ?_)
      (fun c hc hi => h.apart j c id id hj hc hid hi rfl)
    cases hk
    rintro (hs | ⟨_, hs⟩) <;> cases hs
  refine hrec.flushTo ⟨rfl, rfl, rfl, rfl, rfl⟩ ?_ fun i hp => ?_
  · rintro i (hs | ⟨_, hs⟩) <;> cases hs
  · cases hp
    exact (mem_everAdded_add happ _).mpr (.inl rfl)

theorem Ledger.compactAdd {sz : Nat} (hcy : Cycling w) (hc : w.cycle = some c)
    (hst : c.stage = .written o size) (happ : st.apply (.addSstable o.id lo hi sz) = .ok st') :
    Ledger ((w.setManifest m).setCycle (some ⟨c.inputs, .removing o (c.inputs.map (·.id))⟩))
      st' := by
  have hid : CycleId c o.id := .inr ⟨o, size, hst, rfl⟩
  obtain ⟨hfresh, hlt⟩ := h.output c o.id hc hid
  have hidle : Ledger (w.setCycle none) st := h.setCycle ⟨rfl, rfl, rfl, rfl, rfl⟩ (by simp)
  have hrec : Ledger (w.setCycle none) st' := by
    refine hidle.record (cycling_none rfl) happ hlt (h.written c o size hc hst) hfresh
      (fun j hj hi => h.apart j c o.id o.id hj hc hi hid rfl) (fun c' hc' => ?_)
    cases hc'
  have hever : ∀ i ∈ st.everAdded, i ∈ st'.everAdded :=
    fun i hi => (mem_everAdded_add happ i).mpr (.inr hi)
  refine hrec.toRemoving ⟨rfl, rfl, rfl, rfl, rfl⟩ ((mem_everAdded_add happ _).mpr (.inl rfl))
    (fun i hi => ?_) (fun t ht => .inl (mem_map.mpr ⟨t, ht, rfl⟩))
  obtain ⟨t, ht, rfl⟩ := mem_map.mp hi
  exact hever _ (h.tables t (hcy.inputs c hc t ht))

theorem Ledger.compactRemove {rest : List Nat} (hc : w.cycle = some c)
    (hst : c.stage = .removing o (i :: rest)) (hever : st'.everAdded = st.everAdded)
    (hlive : ∀ id, st'.isLive id = true ↔ st.isLive id = true ∧ id ≠ i) :
    Ledger ((w.setManifest m).setCycle (some ⟨c.inputs, .removing o rest⟩)) st' := by
  obtain ⟨ho, hrest, hin⟩ := h.removing c o (i :: rest) hc hst
  refine (h.unrecord hever hlive).toRemoving ⟨rfl, rfl, rfl, rfl, rfl⟩ (hever ▸ ho)
    (fun id hid => hever ▸ hrest id (mem_cons_of_mem _ hid)) (fun t ht => ?_)
  have hdead : st.isLive t.id = false ∨ t.id = i → st'.isLive t.id = false := by
    intro hor
    rw [Bool.eq_false_iff]
    intro hl
    obtain ⟨hl, hne⟩ := (hlive t.id).mp hl
    rcases hor with hor | hor
    · rw [hor] at hl
      cases hl
    · exact hne hor
  rcases hin t ht with hmem | hd
  · rcases mem_cons.mp hmem with he | hmem
    · exact .inr (hdead (.inr he))
    · exact .inl hmem
  · exact .inr (hdead (.inl hd))

/-- The steps that append nothing leave the manifest and its meaning alone. -/
theorem ledger_step (hf : Filed w) (hcy : Cycling w) (hs : Step crc w a w')
    (hne : isReopen a = false) (hno : appendFault a = none) : Ledger w' st := by
  cases hs with
  | flushRecv =>
    refine h.withJob ⟨rfl, rfl, rfl, rfl, rfl⟩ fun j hj => ?_
    cases hj
    refine ⟨?_, nofun⟩
    rintro id (hs | ⟨_, hs⟩) <;> cases hs
  | flushBegin _ _ hp => exact h.flushBegin hp
  | flushWrite hj hst => exact h.flushWrite hj hst
  | @flushInstall j f id hj hst hmem hid hnew =>
    have hw : Ledger (w.install f.table) st := { h with
      tables := forall_mem_cons.mpr
        ⟨hid ▸ h.published j id hj (hf.installing j id hj hst), h.tables⟩ }
    refine hw.flushTo ⟨rfl, rfl, rfl, rfl, rfl⟩ ?_ (h.published j · hj)
    rintro i (hs | ⟨_, hs⟩) <;> cases hs
  | @flushRotate j hj =>
    refine h.flushTo ⟨rfl, rfl, rfl, rfl, rfl⟩ ?_ (h.published j · hj)
    rintro i (hs | ⟨_, hs⟩) <;> · dsimp only at hs; split at hs <;> cases hs
  | flushPurge => exact h.withJob ⟨rfl, rfl, rfl, rfl, rfl⟩ nofun
  | compactCapture | compactSample =>
    refine h.setCycle ⟨rfl, rfl, rfl, rfl, rfl⟩ fun c' hc' => ?_
    cases hc'
    refine ⟨?_, by simp⟩
    rintro id (⟨_, hs⟩ | ⟨_, _, hs, _⟩) <;> cases hs
  | compactAllocate => exact h.compactAllocate hf
  | compactWrite hc hst => exact h.compactWrite hc hst
  | compactSplice hc hst => exact h.splice hcy hc hst
  | compactAbort => exact h.setCycle ⟨rfl, rfl, rfl, rfl, rfl⟩ (by simp)
  | unlink hid => exact h.unlink hid
  | @flushAwait j p hj =>
    refine h.flushTo ⟨rfl, rfl, rfl, rfl, rfl⟩ ?_ (h.published j · hj)
    rintro i (hs | ⟨_, hs⟩) <;> cases hs
  | flushResume hj | flushInstalled hj | flushInstallGone hj | flushMarker hj | flushRetire hj
  | flushPurgeFail hj | flushFail hj =>
    refine h.flushTo ⟨rfl, rfl, rfl, rfl, rfl⟩ ?_ (h.published _ · hj)
    rintro i (hs | ⟨_, hs⟩) <;> cases hs
  | reopen => cases hne
  | _ => first | exact { h with } | cases hno

end

/-! ## Checkpoint marks -/

/-- The marks on their way to the manifest are in order, above the checkpoint there, and
their positions fit. -/
structure Marked (w : World) (ckpt : Nat) : Prop where
  marks : ((ckpt :: (line w).map (·.2)) ++ [w.tracker.contiguous]).Pairwise (· ≤ ·)
  position : ∀ j p, w.flush = some j → j.checkpointMarker = some p ∨ j.stage = .await p →
    p.segmentId ≤ u64Max

theorem marked_init (cfg : LsmConfig) : Marked (World.init cfg) 0 where
  marks := by simp [line, World.init]
  position := by intro j p hj; cases hj

theorem Marked.flushTo (h : Marked w ckpt) (hj : w.flush = some j) (hq : w₁.queue = w.queue)
    (hmark : w.tracker.contiguous ≤ w₁.tracker.contiguous) (hfz : j'.frozen = j.frozen)
    (hck : j'.ckpt = j.ckpt)
    (hpos : ∀ p, j'.checkpointMarker = some p ∨ stage = .await p → p.segmentId ≤ u64Max) :
    Marked (w₁.flushTo j' stage) ckpt where
  marks := by
    rw [line_flushTo hj hq hfz hck]
    exact pairwise_le_mark h.marks hmark
  position := by
    intro k p hk hp
    cases hk
    exact hpos p hp

/-- The same without a new position. -/
theorem Marked.flushOn (h : Marked w ckpt) (hj : w.flush = some j) (hq : w₁.queue = w.queue)
    (htr : w₁.tracker = w.tracker) (hfz : j'.frozen = j.frozen) (hck : j'.ckpt = j.ckpt)
    (hmk : j'.checkpointMarker = j.checkpointMarker) (hst : ∀ p, stage ≠ .await p) :
    Marked (w₁.flushTo j' stage) ckpt := by
  refine h.flushTo hj hq (htr ▸ Nat.le_refl _) hfz hck fun p hp => ?_
  rcases hp with hp | hp
  · exact h.position j p hj (.inl (hmk ▸ hp))
  · exact absurd hp (hst p)

/-- The marks stay in order along the line. -/
theorem marked_step (h : Marked w ckpt) (hseg : Segmented w) (hs : Step crc w a w')
    (hne : isReopen a = false) : Marked w' ckpt := by
  cases hs with
  | applyRefused | apply =>
    exact { h with marks := pairwise_le_mark h.marks (contiguous_account_le _ _) }
  | @applyFreeze r =>
    have hm : ((ckpt :: (line w).map (·.2)) ++ [(w.applyRecord r).tracker.contiguous]).Pairwise
        (· ≤ ·) := pairwise_le_mark h.marks (contiguous_account_le _ _)
    refine { h with marks := ?_ }
    have hline : line ((w.applyRecord r).freeze.ack r) = line (w.applyRecord r) ++
        [(⟨w.nextUid, (w.applyRecord r).active⟩, (w.applyRecord r).tracker.contiguous)] :=
      line_freeze (w.applyRecord r)
    -- the memtable joins the line at the mark the tracker has reached
    rw [hline, map_append, ← cons_append]
    refine pairwise_append.mpr ⟨hm, pairwise_singleton _ _, fun n hn i hi => ?_⟩
    rw [mem_singleton.mp hi]
    rcases mem_append.mp hn with hn | hn
    · exact (pairwise_append.mp hm).2.2 n hn _ (mem_singleton_self _)
    · exact (mem_singleton.mp hn).le
  | @flushRecv f ck rest hf hq =>
    exact {
      marks := by
        have hline : line { w with
            queue := rest, flush := some ⟨f, ck, .start, none, none, false⟩ } = line w := by
          simp [line, hf, hq]
        rw [hline]
        exact h.marks
      position := by
        intro j p hj hp
        cases hj
        rcases hp with hp | hp <;> cases hp }
  | @flushRotate j hj =>
    refine h.flushOn hj rfl rfl rfl rfl rfl fun p hp => ?_
    split at hp <;> cases hp
  | @flushMarker j offset hj =>
    refine h.flushTo hj rfl (Nat.le_refl _) rfl rfl fun p hp => ?_
    rcases hp with hp | hp
    · exact h.position j p hj (.inl hp)
    · obtain rfl := FlushStage.await.inj hp
      exact hseg.segmentId
  | @flushAwait j p hj hst =>
    refine h.flushTo hj rfl (contiguous_account_le _ _) rfl rfl fun q hq => ?_
    rcases hq with hq | hq
    · cases hq
      exact h.position j p hj (.inr hst)
    · cases hq
  | @flushPurge j hj =>
    refine { h with marks := ?_, position := by intro j p hj; cases hj }
    have hline : line w = (j.frozen, j.ckpt) ::
        line { w.purgeBefore j.ckpt [] with flush := none } := by
      simp [line, hj, World.purgeBefore]
    have hm := h.marks
    rw [hline] at hm
    refine List.Pairwise.sublist ?_ hm
    exact ((sublist_cons_self _ _).cons_cons _).append (List.Sublist.refl _)
  | flushBegin hj | flushResume hj | flushWrite hj | flushAdd hj | flushAddFail hj
  | flushInstall hj | flushInstalled hj | flushInstallGone hj | flushCheckpointDone hj
  | flushCheckpoint hj | flushCheckpointFail hj | flushRetire hj | flushPurgeFail hj
  | flushFail hj => exact h.flushOn hj rfl rfl rfl rfl rfl (by simp)
  | reopen => cases hne
  | _ => exact { h with }

/-- Recording the mark at the head of the line. -/
theorem Marked.checkpoint (h : Marked w ckpt)
    (hj : w.flush = some j) : ckpt ≤ j.ckpt ∧ Marked w j.ckpt := by
  have hline : line w = (j.frozen, j.ckpt) :: w.queue := by simp [line, hj]
  have hm := h.marks
  rw [hline, map_cons] at hm
  obtain ⟨hhead, htail⟩ := pairwise_cons.mp hm
  refine ⟨hhead _ (by simp), { h with marks := ?_ }⟩
  rw [hline, map_cons, cons_append]
  refine pairwise_cons.mpr ⟨fun n hn => ?_, htail⟩
  rcases mem_cons.mp hn with rfl | hn
  · exact Nat.le_refl _
  · exact (pairwise_cons.mp htail).1 n hn

/-! ## The manifest is accurate -/

/-- The bytes of the manifest are the edits `es`, all synced, and `st` is what they mean. -/
structure Accurate (crc : Bytes → UInt32) (w : World) (es : List ManifestEdit)
    (st : ManifestState) : Prop where
  logs : Logs crc w.manifest es es es
  sound : w.manifest.poisoned = false
  state : ManifestState.applyAll {} es = .ok st
  ledger : Ledger w st
  marked : Marked w st.checkpointSeq
  nextId : w.nextId ≤ u64Max

theorem accurate_init (cfg : LsmConfig) : Accurate crc (World.init cfg) [] {} where
  logs := logs_init
  sound := rfl
  state := rfl
  ledger := ledger_idle rfl rfl rfl nofun nofun nofun
  marked := marked_init cfg
  nextId := by show 1 ≤ u64Max; decide

theorem manifest_step (hs : Step crc w a w') (hne : isReopen a = false)
    (hno : appendFault a = none) : w'.manifest = w.manifest := by
  cases hs with
  | reopen => cases hne
  | _ => first | rfl | cases hno

theorem nextId_step (h : w.nextId ≤ u64Max) (hs : Step crc w a w') (hne : isReopen a = false) :
    w'.nextId ≤ u64Max := by
  cases hs with
  | flushBegin _ _ _ hid => exact hid
  | compactAllocate _ _ hid => exact hid
  | reopen => cases hne
  | _ => exact h

section Accurate

variable {es : List ManifestEdit} {e : ManifestEdit} {ok : Bool}

/-- An append that does not fail records its edit. -/
theorem Accurate.append (h : Accurate crc w es st) (hwf : e.Wf) (happ : st.apply e = .ok st')
    (hr : w.manifest.appendSync crc e .none = (m, ok)) :
    ok = true ∧ Logs crc m (es ++ [e]) (es ++ [e]) (es ++ [e]) ∧ m.poisoned = false ∧
      ManifestState.applyAll {} (es ++ [e]) = .ok st' := by
  have hst' : ManifestState.applyAll {} (es ++ [e]) = .ok st' :=
    applyAll_append.mpr ⟨st, h.state, applyAll_cons.mpr ⟨st', happ, rfl⟩⟩
  obtain ⟨m', hm', hlogs, hp⟩ := h.logs.appendSync_none hwf h.sound ⟨st', hst'⟩
  obtain ⟨rfl, rfl⟩ := Prod.mk.inj (hr.symm.trans hm')
  exact ⟨rfl, hlogs, hp, hst'⟩

theorem apply_addEdit (st : ManifestState) (t : SsTable) (size : UInt64) :
    ∃ st', st.apply (addEdit t size) = .ok st' ∧ st'.checkpointSeq = st.checkpointSeq :=
  ⟨_, rfl, rfl⟩

theorem apply_setCheckpoint {c : Nat} (hc : st.checkpointSeq ≤ c) (seg off : Nat) :
    ∃ st', st.apply (.setCheckpoint c seg off) = .ok st' ∧ st'.checkpointSeq = c ∧
      st'.everAdded = st.everAdded ∧ st'.liveSstables = st.liveSstables := by
  have hok : ¬ (st.checkpoint.any fun cp => c < cp.flushedThroughSeq) = true := by
    cases hcp : st.checkpoint with
    | none => simp
    | some cp => simpa [ManifestState.checkpointSeq, hcp] using hc
  exact ⟨_, if_neg hok, rfl, rfl, rfl⟩

/-- What the engine holds can be recorded. -/
theorem Accurate.table_wf {t : SsTable} (h : Accurate crc w es st) (hn : Numbered w) (size : UInt64)
    (hid : t.id < w.nextId) (ht : ∀ e ∈ t.records, e ∈ appliedEntries w) : (addEdit t size).Wf := by
  have hmax := h.nextId
  exact addEdit_wf size (by omega) fun e he => applied_le_max hn (ht e he)

theorem Accurate.job_wf (h : Accurate crc w es st) (hb : Base w) (hj : w.flush = some j)
    (hst : j.stage = .add id size) : (addEdit (writeFromMemtable j.frozen.table id) size).Wf :=
  h.table_wf hb.numbered size (hb.filed.usesBelow j id hj (.inr (.inl ⟨size, hst⟩)))
    (hb.sourced.frozen _ (job_mem_unflushed hj))

theorem Accurate.output_wf (h : Accurate crc w es st) (hb : Base w) (hc : w.cycle = some c)
    (hst : c.stage = .written o size) : (addEdit o size).Wf := by
  refine h.table_wf hb.numbered size (h.ledger.output c o.id hc (.inr ⟨o, size, hst, rfl⟩)).2
    fun e he => ?_
  obtain ⟨t, ht, he⟩ := hb.cycling.mem_output hc (by rw [hst]; rfl) he
  exact hb.sourced.tables t ht e he

theorem Accurate.checkpoint_wf {p : WalPosition} (h : Accurate crc w es st) (hn : Numbered w)
    (ht : Tracked w) (hj : w.flush = some j) (hp : j.checkpointMarker = some p) :
    (ManifestEdit.setCheckpoint j.ckpt p.segmentId p.offset.toNat).Wf := by
  have hline : line w = (j.frozen, j.ckpt) :: w.queue := by simp [line, hj]
  have hle : j.ckpt ≤ w.tracker.contiguous := by
    have hm := (pairwise_append.mp h.marked.marks).2.2
    refine hm j.ckpt ?_ _ (mem_singleton_self _)
    rw [hline]
    simp
  have h2 := ht.mark_lt
  have h3 := hn.fits
  exact ⟨by omega, h.marked.position j p hj (.inl hp), uint64_le _⟩

/-- **The manifest stays accurate** as long as no append fails. -/
theorem accurate_step (h : Accurate crc w es st) (hb : Base w) (hseg : Segmented w)
    (ht : Tracked w) (hs : Step crc w a w') (hne : isReopen a = false) (hnf : NoAppendFault a) :
    ∃ es' st', Accurate crc w' es' st' := by
  have hmark := marked_step h.marked hseg hs hne
  have hid := nextId_step h.nextId hs hne
  cases hfault : appendFault a with
  -- nothing is appended
  | none =>
    exact ⟨es, st, {
      logs := manifest_step hs hne hfault ▸ h.logs
      sound := manifest_step hs hne hfault ▸ h.sound
      state := h.state
      ledger := ledger_step h.ledger hb.filed hb.cycling hs hne hfault
      marked := hmark
      nextId := hid }⟩
  | some fault =>
    cases hs with
    | @flushAdd j size fault m id hj hst hr =>
      obtain rfl : fault = .none := hnf fault rfl
      obtain ⟨st', happ, hck⟩ := apply_addEdit st (writeFromMemtable j.frozen.table id) size
      obtain ⟨_, hlogs, hp, hst'⟩ := h.append (h.job_wf hb hj hst) happ hr
      exact ⟨_, st', hlogs, hp, hst', h.ledger.flushAdd hb.cycling hb.filed hj hst happ,
        hck ▸ hmark, hid⟩
    | @flushAddFail j size fault m id hj hst hr =>
      obtain rfl : fault = .none := hnf fault rfl
      obtain ⟨st', happ, _⟩ := apply_addEdit st (writeFromMemtable j.frozen.table id) size
      -- without a fault the append is answered `Ok`
      exact absurd (h.append (h.job_wf hb hj hst) happ hr).1 (by simp)
    | @flushCheckpointDone j fault hj =>
      refine ⟨es, st, h.logs, h.sound, h.state, ?_, hmark, hid⟩
      refine h.ledger.flushTo ⟨rfl, rfl, rfl, rfl, rfl⟩ ?_ (h.ledger.published j · hj)
      rintro i (hs | ⟨_, hs⟩) <;> cases hs
    | @flushCheckpoint j p fault m hj hst hp _ hr =>
      obtain rfl : fault = .none := hnf fault rfl
      obtain ⟨hle, hm⟩ := h.marked.checkpoint hj
      obtain ⟨st', happ, hck, hever, hlive⟩ :=
        apply_setCheckpoint hle p.segmentId p.offset.toNat
      obtain ⟨_, hlogs, hsound, hst'⟩ :=
        h.append (h.checkpoint_wf hb.numbered ht hj hp) happ hr
      refine ⟨_, st', hlogs, hsound, hst', ?_, ?_, hid⟩
      · refine (h.ledger.congr hever hlive).flushTo ⟨rfl, rfl, rfl, rfl, rfl⟩ ?_ fun i hi => ?_
        · rintro i (hs | ⟨_, hs⟩) <;> cases hs
        · exact hever ▸ h.ledger.published j i hj hi
      · rw [hck]
        exact hm.flushOn hj rfl rfl rfl rfl rfl (by simp)
    | @flushCheckpointFail j p fault m hj hst hp _ hr =>
      obtain rfl : fault = .none := hnf fault rfl
      obtain ⟨st', happ, _⟩ :=
        apply_setCheckpoint (h.marked.checkpoint hj).1 p.segmentId p.offset.toNat
      exact absurd (h.append (h.checkpoint_wf hb.numbered ht hj hp) happ hr).1 (by simp)
    | @compactAdd c o size fault m hc hst hr =>
      obtain rfl : fault = .none := hnf fault rfl
      obtain ⟨st', happ, hck⟩ := apply_addEdit st o size
      obtain ⟨_, hlogs, hp, hst'⟩ := h.append (h.output_wf hb hc hst) happ hr
      exact ⟨_, st', hlogs, hp, hst', h.ledger.compactAdd hb.cycling hc hst happ,
        hck ▸ hmark, hid⟩
    | @compactAddFail c o size fault m hc hst hr =>
      obtain rfl : fault = .none := hnf fault rfl
      obtain ⟨st', happ, _⟩ := apply_addEdit st o size
      exact absurd (h.append (h.output_wf hb hc hst) happ hr).1 (by simp)
    | @compactRemove c o rest fault m i hc hst hr =>
      obtain rfl : fault = .none := hnf fault rfl
      have hever := (h.ledger.removing c o (i :: rest) hc hst).2.1 i (by simp)
      obtain ⟨st', happ, hever', hlive, hck⟩ := apply_remove hever
      have hlt := h.ledger.below i hever
      have hmax := h.nextId
      obtain ⟨_, hlogs, hp, hst'⟩ := h.append (e := .removeSstable i)
        (by show i ≤ u64Max; omega) happ hr
      exact ⟨_, st', hlogs, hp, hst', h.ledger.compactRemove hc hst hever' hlive,
        hck ▸ hmark, hid⟩
    | @compactRemoveFail c o rest fault m i hc hst hr =>
      obtain rfl : fault = .none := hnf fault rfl
      have hever := (h.ledger.removing c o (i :: rest) hc hst).2.1 i (by simp)
      obtain ⟨st', happ, _⟩ := apply_remove hever
      have hlt := h.ledger.below i hever
      have hmax := h.nextId
      exact absurd (h.append (e := .removeSstable i) (by show i ≤ u64Max; omega) happ hr).1
        (by simp)
    | _ => cases hfault

end Accurate

end RubixDb.Proof
