import RubixDb.Proof.Apply

/-!
# What opening the engine leaves

Reconciliation walks the table files once. In closed form: it keeps every file whose
table the manifest has as live or has never heard of, records the latter with one
`AddSstable` each, and hands back the kept tables in descending id order.
`openEngine_ok` says the same of the whole of `LsmEngine::open`.
-/

namespace RubixDb.Proof

open Lib List

variable {crc : Bytes → UInt32} {st st' : ManifestState} {id n sync : Nat} {t : SsTable}
    {size : UInt64} {e : ManifestEdit} {config : LsmConfig} {bytes : Bytes} {found : List SstFile}

/-- The manifest has never heard of the file's table. -/
def Unrecorded (st : ManifestState) (f : SstFile) : Prop :=
  st.isLive f.table.id = false ∧ f.table.id ∉ st.everAdded

/-- The file survives reconciliation. -/
def Survives (st : ManifestState) (f : SstFile) : Prop :=
  st.isLive f.table.id = true ∨ f.table.id ∉ st.everAdded

instance (st : ManifestState) (f : SstFile) : Decidable (Unrecorded st f) :=
  inferInstanceAs (Decidable (_ ∧ _))

instance (st : ManifestState) (f : SstFile) : Decidable (Survives st f) :=
  inferInstanceAs (Decidable (_ ∨ _))

def keptFiles (st : ManifestState) (files : List SstFile) : List SstFile :=
  files.filter fun f => Survives st f

/-- The edits that record the adopted files. -/
def adoptEdits (st : ManifestState) (files : List SstFile) : List ManifestEdit :=
  (files.filter fun f => Unrecorded st f).map fun f => addEdit f.table f.size

/-- Append edits one after another, none of them failing. -/
def appendAll (crc : Bytes → UInt32) (m : Manifest) (es : List ManifestEdit) : Manifest :=
  es.foldl (fun m e => (m.appendSync crc e .none).1) m

def insertTables (l : List SsTable) (files : List SstFile) : List SsTable :=
  files.foldl (fun l f => insertBy (·.id) f.table l) l

/-! ## Edits and the manifest state -/

theorem isLive_iff : st.isLive id = true ↔ ∃ l ∈ st.liveSstables, l.1 = id := by
  simp [ManifestState.isLive, any_eq_true]

/-- Recording a table affects what is known of its own id only. -/
theorem apply_add_other (h : st.apply (addEdit t size) = .ok st') (hne : id ≠ t.id) :
    st'.isLive id = st.isLive id ∧ (id ∈ st'.everAdded ↔ id ∈ st.everAdded) := by
  cases h
  refine ⟨?_, by simp [hne]⟩
  split
  · rfl
  · simp [ManifestState.isLive, hne.symm]

/-- What an edit that applies does to the state. -/
theorem apply_ok (h : st.apply e = .ok st') :
    (∃ id lo hi size, e = .addSstable id lo hi size ∧ st' = { st with
      everAdded := id :: st.everAdded
      liveSstables :=
        if st.isLive id then st.liveSstables else (id, ⟨lo, hi, size⟩) :: st.liveSstables }) ∨
    (∃ id, e = .removeSstable id ∧ id ∈ st.everAdded ∧
      st' = { st with liveSstables := st.liveSstables.filter (·.1 ≠ id) }) ∨
    (∃ c seg off, e = .setCheckpoint c seg off ∧ st.checkpointSeq ≤ c ∧
      st' = { st with checkpoint := some ⟨c, seg, off⟩ }) := by
  cases e with
  | addSstable id lo hi size => exact .inl ⟨id, lo, hi, size, rfl, (Except.ok.inj h).symm⟩
  | removeSstable id =>
    simp only [ManifestState.apply] at h
    split_ifs at h with hid
    exact .inr (.inl ⟨id, rfl, hid, (Except.ok.inj h).symm⟩)
  | setCheckpoint c seg off =>
    simp only [ManifestState.apply] at h
    split_ifs at h with hc
    refine .inr (.inr ⟨c, seg, off, rfl, ?_, (Except.ok.inj h).symm⟩)
    unfold ManifestState.checkpointSeq
    cases hcp : st.checkpoint with
    | none => exact Nat.zero_le _
    | some cp => simpa [hcp] using hc

theorem applyAll_cons {es : List ManifestEdit} :
    st.applyAll (e :: es) = .ok st' ↔ ∃ st1, st.apply e = .ok st1 ∧ st1.applyAll es = .ok st' := by
  rw [ManifestState.applyAll]
  cases h : st.apply e with
  | error err => simp
  | ok st1 => simp

theorem everAdded_subset_applyAll {es : List ManifestEdit} {st st' : ManifestState}
    (h : st.applyAll es = .ok st') : ∀ id ∈ st.everAdded, id ∈ st'.everAdded := by
  induction es generalizing st st' with
  | nil => intro id hid; exact Except.ok.inj h ▸ hid
  | cons e es ih =>
    intro id hid
    obtain ⟨st1, h1, h⟩ := applyAll_cons.mp h
    refine ih h id ?_
    rcases apply_ok h1 with ⟨_, _, _, _, _, rfl⟩ | ⟨_, _, _, rfl⟩ | ⟨_, _, _, _, _, rfl⟩
    · exact mem_cons_of_mem _ hid
    · exact hid
    · exact hid

/-- Recording tables makes none of them unknown again. -/
theorem live_subset_adopt : ∀ {files : List SstFile} {st0 st st' : ManifestState},
    st.applyAll (adoptEdits st0 files) = .ok st' → ∀ id, st.isLive id = true →
      st'.isLive id = true := by
  intro files st0
  unfold adoptEdits
  generalize files.filter (fun f => Unrecorded st0 f) = fs
  induction fs with
  | nil => intro st st' h id hid; exact Except.ok.inj h ▸ hid
  | cons f fs ih =>
    intro st st' h id hid
    obtain ⟨st1, h1, h⟩ := applyAll_cons.mp h
    refine ih h id ?_
    by_cases hne : id = f.table.id
    · cases h1
      subst hne
      rw [if_pos hid]
      exact hid
    · rw [(apply_add_other h1 hne).1]
      exact hid

/-- What recording tables makes known: their own ids. -/
theorem adopt_known : ∀ {files : List SstFile} {st0 st st' : ManifestState},
    st.applyAll (adoptEdits st0 files) = .ok st' →
      (∀ id ∈ st'.everAdded, id ∈ st.everAdded ∨ ∃ f ∈ files, f.table.id = id) ∧
      ∀ l ∈ st'.liveSstables, l ∈ st.liveSstables ∨ ∃ f ∈ files, f.table.id = l.1 := by
  intro files st0
  have hsub : ∀ f ∈ files.filter (fun f => Unrecorded st0 f), f ∈ files :=
    fun f hf => (mem_filter.mp hf).1
  unfold adoptEdits
  revert hsub
  -- any files to adopt, not only those the state does not know
  generalize files.filter (fun f => Unrecorded st0 f) = fs
  induction fs with
  | nil =>
    intro _ st st' h
    cases h
    exact ⟨fun id hid => .inl hid, fun l hl => .inl hl⟩
  | cons f fs ih =>
    intro hsub st st' h
    obtain ⟨st1, h1, h⟩ := applyAll_cons.mp h
    obtain ⟨hever, hlive⟩ := ih (fun g hg => hsub g (mem_cons_of_mem _ hg)) h
    cases h1
    have hf : ∃ g ∈ files, g.table.id = f.table.id := ⟨f, hsub f (by simp), rfl⟩
    constructor
    · intro id hid
      rcases hever id hid with hid | hid
      · rcases mem_cons.mp hid with rfl | hid
        · exact .inr hf
        · exact .inl hid
      · exact .inr hid
    · intro l hl
      rcases hlive l hl with hl | hl
      · have hl' : l ∈ (if st.isLive f.table.id then st.liveSstables else
            (f.table.id, ⟨f.table.minSeq, f.table.maxSeq, f.size.toNat⟩) :: st.liveSstables) := hl
        split at hl'
        · exact .inl hl'
        · rcases mem_cons.mp hl' with rfl | hl'
          · exact .inr hf
          · exact .inl hl'
      · exact .inr hl

theorem survives_congr {f : SstFile} (h : st.apply (addEdit t size) = .ok st')
    (hne : f.table.id ≠ t.id) :
    (Survives st' f ↔ Survives st f) ∧ (Unrecorded st' f ↔ Unrecorded st f) := by
  obtain ⟨h1, h2⟩ := apply_add_other h hne
  unfold Survives Unrecorded
  rw [h1, h2]
  exact ⟨Iff.rfl, Iff.rfl⟩

/-! ## Reconciliation in closed form -/

/-- **Reconciliation of a directory never fails,** and this is what it does. -/
theorem reconcileFiles_ok (crc : Bytes → UInt32) {files : List SstFile} (acc : Reconciled)
    (hnodup : (files.map (·.table.id)).Nodup) :
    ∃ acc', reconcileFiles crc acc files = .ok acc' ∧
      acc'.kept = acc.kept ++ keptFiles acc.state files ∧
      acc'.opened = insertTables acc.opened (keptFiles acc.state files) ∧
      acc'.manifest = appendAll crc acc.manifest (adoptEdits acc.state files) ∧
      acc.state.applyAll (adoptEdits acc.state files) = .ok acc'.state := by
  induction files generalizing acc with
  | nil =>
    exact ⟨acc, rfl, by simp [keptFiles], rfl, rfl, rfl⟩
  | cons f fs ih =>
    obtain ⟨hf, hfs⟩ := nodup_cons.mp hnodup
    have hne : ∀ g ∈ fs, g.table.id ≠ f.table.id :=
      fun g hg he => hf (mem_map.mpr ⟨g, hg, he⟩)
    by_cases hlive : acc.state.isLive f.table.id = true
    · obtain ⟨acc', hrun, hk, ho, hm, hs⟩ :=
        ih { acc with
          opened := insertBy (·.id) f.table acc.opened
          kept := acc.kept ++ [f] } hfs
      have hsur : Survives acc.state f := .inl hlive
      have hrec : ¬ Unrecorded acc.state f := fun h => by simp [h.1] at hlive
      refine ⟨acc', ?_, ?_, ?_, ?_, ?_⟩
      · simpa [reconcileFiles, reconcileFile, hlive] using hrun
      · simpa [keptFiles, hsur] using hk
      · simpa [keptFiles, hsur, insertTables] using ho
      · simpa [adoptEdits, hrec] using hm
      · simpa [adoptEdits, hrec] using hs
    · by_cases hever : f.table.id ∈ acc.state.everAdded
      · obtain ⟨acc', hrun, hk, ho, hm, hs⟩ := ih acc hfs
        have hsur : ¬ Survives acc.state f := fun h => h.elim hlive fun h => h hever
        have hrec : ¬ Unrecorded acc.state f := fun h => h.2 hever
        refine ⟨acc', ?_, ?_, ?_, ?_, ?_⟩
        · simpa [reconcileFiles, reconcileFile, hlive, hever] using hrun
        · simpa [keptFiles, hsur] using hk
        · simpa [keptFiles, hsur] using ho
        · simpa [adoptEdits, hrec] using hm
        · simpa [adoptEdits, hrec] using hs
      · have hsur : Survives acc.state f := .inr hever
        have hrec : Unrecorded acc.state f := ⟨by simpa using hlive, hever⟩
        obtain ⟨st, hst⟩ : ∃ st, acc.state.apply (addEdit f.table f.size) = .ok st := ⟨_, rfl⟩
        -- adopting `f` changes the fate of no other file
        have hkeep : keptFiles st fs = keptFiles acc.state fs :=
          filter_congr fun g hg =>
            decide_eq_decide.mpr (survives_congr hst (hne g hg)).1
        have hadopt : adoptEdits st fs = adoptEdits acc.state fs :=
          congrArg (List.map _) (filter_congr fun g hg =>
            decide_eq_decide.mpr (survives_congr hst (hne g hg)).2)
        obtain ⟨acc', hrun, hk, ho, hm, hs⟩ :=
          ih ⟨(acc.manifest.appendSync crc (addEdit f.table f.size) .none).1, st,
            insertBy (·.id) f.table acc.opened, acc.kept ++ [f]⟩ hfs
        simp only [hkeep, hadopt] at hk ho hm hs
        have hone : reconcileFile crc acc f =
            .ok ⟨(acc.manifest.appendSync crc (addEdit f.table f.size) .none).1, st,
              insertBy (·.id) f.table acc.opened, acc.kept ++ [f]⟩ := by
          unfold reconcileFile
          rw [if_neg hlive, if_neg hever]
          cases hst
          rfl
        refine ⟨acc', ?_, ?_, ?_, ?_, ?_⟩
        · rw [reconcileFiles, hone]; exact hrun
        · simpa [keptFiles, hsur] using hk
        · simpa [keptFiles, hsur, insertTables] using ho
        · simpa [adoptEdits, hrec, appendAll] using hm
        · simpa [adoptEdits, hrec, ManifestState.applyAll, hst] using hs

/-! ## The rebuilt list -/

/-- The list is rebuilt in the order of the ids. -/
theorem insertTables_spec {files : List SstFile} {l : List SsTable}
    (hnodup : (files.map (·.table.id)).Nodup) (hl : SortedBy (·.id) l)
    (hne : ∀ f ∈ files, ∀ t ∈ l, t.id ≠ f.table.id) :
    SortedBy (·.id) (insertTables l files) ∧
      ∀ t, t ∈ insertTables l files ↔ t ∈ l ∨ ∃ f ∈ files, f.table = t := by
  induction files generalizing l with
  | nil => exact ⟨hl, fun t => by simp [insertTables]⟩
  | cons f fs ih =>
    obtain ⟨hf, hfs⟩ := nodup_cons.mp hnodup
    have hmem : ∀ t, t ∈ insertBy (·.id) f.table l ↔ t = f.table ∨ t ∈ l := by
      intro t
      rw [mem_insertBy hl]
      refine or_congr_right ⟨fun h => h.1, fun h => ⟨h, hne f (by simp) t h⟩⟩
    obtain ⟨hs, hm⟩ := ih hfs (hl.insertBy f.table) fun g hg t ht => by
      rcases (hmem t).mp ht with rfl | ht
      · exact fun he => hf (mem_map.mpr ⟨g, hg, he.symm⟩)
      · exact hne g (mem_cons_of_mem _ hg) t ht
    refine ⟨hs, fun t => ?_⟩
    show t ∈ insertTables _ fs ↔ _
    rw [hm t, hmem t]
    constructor
    · rintro ((rfl | h) | ⟨g, hg, rfl⟩)
      · exact .inr ⟨f, by simp, rfl⟩
      · exact .inl h
      · exact .inr ⟨g, mem_cons_of_mem _ hg, rfl⟩
    · rintro (h | ⟨g, hg, rfl⟩)
      · exact .inl (.inr h)
      · rcases mem_cons.mp hg with rfl | hg
        · exact .inl (.inl rfl)
        · exact .inr ⟨g, hg, rfl⟩

/-! ## The whole of `open` -/

/-- What a successful open found (`segs`, `bytes`, `found`) and left. -/
structure OpenedAs (crc : Bytes → UInt32) (config : LsmConfig) (segs : List WalSegment)
    (bytes : Bytes) (sync : Nat) (found : List SstFile) (w : World)
    (m : Manifest) (r : ManifestReplayResult) : Prop where
  manifestOpened : Manifest.openFile crc bytes sync = .ok (m, r)
  cfg : w.cfg = config
  sealed : w.sealed = segs.dropLast.map fun s => { s with sealedMax := lastSeq s.records }
  activeSegment : w.activeSegment = segs.getLast?.getD ⟨1, [], 0⟩
  nextSeq : w.nextSeq = max (lastSeq (segmentRecords segs) + 1) (r.state.checkpointSeq + 1)
  durable : w.durable = w.nextSeq - 1
  files : w.files = keptFiles r.state found
  manifest : w.manifest = appendAll crc m (adoptEdits r.state found)
  active : w.active = replayWal (MemTable.new config.memtableMaxSizeBytes) r.state.checkpointSeq
    (segmentRecords segs)
  tracker : w.tracker = ⟨max (lastSeq (segmentRecords segs)) r.state.checkpointSeq, []⟩
  sstables : w.sstables = (insertTables [] (keptFiles r.state found)).reverse
  present : ∀ id, r.state.isLive id = true → ∃ f ∈ found, f.table.id = id
  idsBelow : (∀ f ∈ found, f.table.id < w.nextId) ∧ ∀ id ∈ r.state.everAdded, id < w.nextId
  nextIdLe : ∀ n, 0 < n → (∀ f ∈ found, f.table.id < n) → (∀ id ∈ r.state.everAdded, id < n) →
    (∀ l ∈ r.state.liveSstables, l.1 < n) → w.nextId ≤ n
  idle : w.immutables = [] ∧ w.queue = [] ∧ w.flush = none ∧ w.cycle = none ∧ w.garbage = [] ∧
    w.pending = []
  noSnapshots : w.registry = [] ∧ w.reading = [] ∧ w.snapshots = []

theorem le_foldr_max {l : List Nat} (h : n ∈ l) : n ≤ l.foldr max 0 := by
  induction l with
  | nil => exact absurd h (by simp)
  | cons a l ih =>
    rcases mem_cons.mp h with rfl | h
    · exact Nat.le_max_left _ _
    · exact Nat.le_trans (ih h) (Nat.le_max_right _ _)

theorem foldr_max_lt (hn : 0 < n) {l : List Nat} (h : ∀ m ∈ l, m < n) : l.foldr max 0 < n := by
  induction l with
  | nil => exact hn
  | cons a l ih =>
    exact max_lt (h a (by simp)) (ih fun m hm => h m (mem_cons_of_mem _ hm))

/-- **`LsmEngine::open`, read backwards:** when it returns an engine. -/
theorem openEngine_ok {segs : List WalSegment} {w : World} (hids : (found.map (·.table.id)).Nodup)
    (h : openEngine crc config segs bytes sync found = .ok w) :
    ∃ m r, OpenedAs crc config segs bytes sync found w m r := by
  unfold openEngine at h
  cases hopen : Manifest.openFile crc bytes sync with
  | error e => rw [hopen] at h; cases h
  | ok mr =>
    obtain ⟨m, r⟩ := mr
    obtain ⟨acc, hrun, hk, ho, hm, hs⟩ := reconcileFiles_ok crc ⟨m, r.state, [], []⟩ hids
    simp only [hopen, reconcileSstablesWithManifest, hrun] at h
    -- a table the manifest lists must be on disk
    cases hmiss : acc.state.liveSstables.find? fun l => ¬ found.any (·.table.id = l.1) with
    | some l => rw [hmiss] at h; cases h
    | none =>
      rw [hmiss] at h
      cases h
      have hever := everAdded_subset_applyAll hs
      exact ⟨m, r, {
        manifestOpened := hopen
        cfg := rfl
        sealed := rfl
        activeSegment := rfl
        nextSeq := rfl
        durable := rfl
        files := by simpa using hk
        manifest := hm
        active := rfl
        tracker := rfl
        sstables := congrArg List.reverse ho
        present := fun id hid => by
          obtain ⟨l, hl, rfl⟩ := isLive_iff.mp (live_subset_adopt hs id hid)
          simpa using find?_eq_none.mp hmiss l hl
        idsBelow := by
          refine ⟨fun f hf => ?_, fun id hid => ?_⟩
          · have hle := le_foldr_max (mem_map.mpr ⟨f, hf, rfl⟩ :
              f.table.id ∈ found.map (·.table.id))
            exact Nat.lt_succ_of_le (Nat.le_trans hle (Nat.le_max_left _ _))
          · have hle := le_foldr_max (hever id hid)
            exact Nat.lt_succ_of_le (Nat.le_trans hle
              (Nat.le_trans (Nat.le_max_left _ _) (Nat.le_max_right _ _)))
        nextIdLe := by
          intro n hn hfound hever' hlive'
          obtain ⟨hever1, hlive1⟩ := adopt_known hs
          refine Nat.succ_le_of_lt (max_lt (foldr_max_lt hn fun i hi => ?_)
            (max_lt (foldr_max_lt hn fun i hi => ?_) (foldr_max_lt hn fun i hi => ?_)))
          · obtain ⟨f, hf, rfl⟩ := mem_map.mp hi
            exact hfound f hf
          · rcases hever1 i hi with hi | ⟨f, hf, rfl⟩
            · exact hever' i hi
            · exact hfound f hf
          · obtain ⟨l, hl, rfl⟩ := mem_map.mp hi
            rcases hlive1 l hl with hl | ⟨f, hf, hfl⟩
            · exact hlive' l hl
            · exact hfl ▸ hfound f hf
        idle := ⟨rfl, rfl, rfl, rfl, rfl, rfl⟩
        noSnapshots := ⟨rfl, rfl, rfl⟩ }⟩

/-- **Reconciliation succeeds** when the file of every live table is there, and the list is
the kept tables in descending id order. -/
theorem reconcile_returns {found : List SstFile} (m : Manifest) {st : ManifestState}
    (hids : (found.map (·.table.id)).Nodup)
    (hpresent : ∀ id, st.isLive id = true → ∃ f ∈ found, f.table.id = id) :
    ∃ nextId acc, reconcileSstablesWithManifest crc found m st =
      .ok ((insertTables [] (keptFiles st found)).reverse, nextId, acc) := by
  obtain ⟨acc, hrun, _, ho, _, hs⟩ := reconcileFiles_ok crc ⟨m, st, [], []⟩ hids
  have hmiss : acc.state.liveSstables.find? (fun l => ¬ found.any (·.table.id = l.1)) = none := by
    refine find?_eq_none.mpr fun l hl => ?_
    have hfile : ∃ f ∈ found, f.table.id = l.1 :=
      ((adopt_known hs).2 l hl).elim (fun hl => hpresent l.1 (isLive_iff.mpr ⟨l, hl, rfl⟩)) id
    simpa using hfile
  simp only [reconcileSstablesWithManifest, hrun, hmiss, ho]
  exact ⟨_, _, rfl⟩

/-- **`LsmEngine::open` succeeds** when the manifest replays and the file of every live
table is there. -/
theorem openEngine_returns (segs : List WalSegment) {m : Manifest} {r : ManifestReplayResult}
    (hids : (found.map (·.table.id)).Nodup) (hopen : Manifest.openFile crc bytes sync = .ok (m, r))
    (hpresent : ∀ id, r.state.isLive id = true → ∃ f ∈ found, f.table.id = id) :
    ∃ w, openEngine crc config segs bytes sync found = .ok w := by
  obtain ⟨nextId, acc, hrec⟩ := @reconcile_returns crc found m r.state hids hpresent
  unfold openEngine
  simp only [hopen, hrec]
  exact ⟨_, rfl⟩

end RubixDb.Proof
