import RubixDb.Proof.ManifestLog
import RubixDb.Proof.Tracking

/-!
# Checkpoint safety

The checkpoint in the manifest tells `open` which records it need not replay, and the
flush thread which segments it may delete. Both are safe because of one chain:

* the tracker's mark is passed by applied records only (`Tracked`);
* a frozen MemTable goes down the line to the flush thread with the mark at its freeze,
  and everything up to that mark is in it, ahead of it in the line, or in a recorded
  table (`InLine`);
* the flush thread records the mark as checkpoint after the table, so an edit
  `SetCheckpoint c` in the manifest stands behind the `AddSstable` edits of tables that
  hold everything up to `c` (`Recorded`);
* it deletes segments only once that edit is synced (`walKept`).

Compaction is left out here: tables are only ever added.
-/

namespace RubixDb.Proof

open Lib List

variable {crc : Bytes → UInt32} {w w' : World} {a : Act}

/-! ## Edits -/

variable {es ds : List ManifestEdit} {id : Nat}

/-- The tables the edits record. -/
def addedIds (es : List ManifestEdit) : List Nat :=
  es.filterMap fun
    | .addSstable id _ _ _ => some id
    | _ => none

/-- A table is never taken out of the manifest. -/
def NoRemove (es : List ManifestEdit) : Prop := ∀ e ∈ es, ∀ id, e ≠ .removeSstable id

theorem mem_addedIds :
    id ∈ addedIds es ↔ ∃ lo hi size, ManifestEdit.addSstable id lo hi size ∈ es := by
  unfold addedIds
  rw [mem_filterMap]
  constructor
  · rintro ⟨e, he, hid⟩
    cases e with
    | addSstable i lo hi size =>
      obtain rfl : i = id := Option.some.inj hid
      exact ⟨lo, hi, size, he⟩
    | removeSstable i => cases hid
    | setCheckpoint c seg off => cases hid
  · rintro ⟨lo, hi, size, he⟩
    exact ⟨_, he, rfl⟩

theorem addedIds_mono (h : ds <+: es) (hid : id ∈ addedIds ds) : id ∈ addedIds es := by
  obtain ⟨lo, hi, size, he⟩ := mem_addedIds.mp hid
  exact mem_addedIds.mpr ⟨lo, hi, size, h.subset he⟩

theorem isLive_add {st st' : ManifestState} {i lo hi size : Nat}
    (h : st.apply (.addSstable i lo hi size) = .ok st') (id : Nat) :
    st'.isLive id = true ↔ st.isLive id = true ∨ id = i := by
  cases h
  by_cases hl : st.isLive i = true
  · -- recorded twice: the first edit counts
    rw [if_pos hl]
    refine ⟨.inl, fun h => h.elim (fun h => h) fun h => ?_⟩
    exact h ▸ hl
  · rw [if_neg hl]
    simp only [any_cons, Bool.or_eq_true, decide_eq_true_eq, ManifestState.isLive]
    exact ⟨fun h => h.symm.imp_right Eq.symm, fun h => h.symm.imp_left Eq.symm⟩

/-- Without removals the live tables are the recorded ones. -/
theorem isLive_of_added {es : List ManifestEdit} {st st' : ManifestState} (hno : NoRemove es)
    (h : st.applyAll es = .ok st') :
    ∀ id, st'.isLive id = true ↔ st.isLive id = true ∨ id ∈ addedIds es := by
  induction es generalizing st st' with
  | nil =>
    intro id
    cases h
    simp [addedIds]
  | cons e es ih =>
    intro id
    obtain ⟨st1, h1, h⟩ := applyAll_cons.mp h
    rw [ih (fun x hx => hno x (mem_cons_of_mem _ hx)) h id]
    rcases apply_ok h1 with ⟨i, lo, hi, size, rfl, rfl⟩ | ⟨i, rfl, _, _⟩
      | ⟨c, seg, off, rfl, _, rfl⟩
    · have hcons : id ∈ addedIds (.addSstable i lo hi size :: es) ↔ id = i ∨ id ∈ addedIds es := by
        simp [addedIds]
      rw [hcons, isLive_add h1, or_assoc]
    · exact absurd rfl (hno _ (by simp) i)
    · rfl

/-- A table the manifest has heard of was recorded. -/
theorem everAdded_of_applyAll : ∀ {es : List ManifestEdit} {st st' : ManifestState},
    st.applyAll es = .ok st' → ∀ id ∈ st'.everAdded, id ∈ st.everAdded ∨ id ∈ addedIds es := by
  intro es
  induction es with
  | nil =>
    intro st st' h id hid
    exact .inl (Except.ok.inj h ▸ hid)
  | cons e es ih =>
    intro st st' h id hid
    obtain ⟨st1, h1, h⟩ := applyAll_cons.mp h
    have hsub : id ∈ addedIds es → id ∈ addedIds (e :: es) := fun hid => by
      obtain ⟨lo, hi, size, he⟩ := mem_addedIds.mp hid
      exact mem_addedIds.mpr ⟨lo, hi, size, mem_cons_of_mem _ he⟩
    rcases ih h id hid with hid | hid
    · rcases apply_ok h1 with ⟨i, lo, hi, size, rfl, rfl⟩ | ⟨i, rfl, _, rfl⟩ |
        ⟨c, seg, off, rfl, _, rfl⟩
      · rcases mem_cons.mp hid with rfl | hid
        · exact .inr (mem_addedIds.mpr ⟨lo, hi, size, by simp⟩)
        · exact .inl hid
      · exact .inl hid
      · exact .inl hid
    · exact .inr (hsub hid)

/-- Checkpoints in a manifest that replays never go back. -/
theorem checkpoint_le_of_mem {es : List ManifestEdit} {st st' : ManifestState}
    (h : st.applyAll es = .ok st') :
    st.checkpointSeq ≤ st'.checkpointSeq ∧
      ∀ c seg off, ManifestEdit.setCheckpoint c seg off ∈ es → c ≤ st'.checkpointSeq := by
  induction es generalizing st st' with
  | nil =>
    cases h
    exact ⟨Nat.le_refl _, by simp⟩
  | cons e es ih =>
    obtain ⟨st1, h1, h⟩ := applyAll_cons.mp h
    obtain ⟨hle, hmem⟩ := ih h
    rcases apply_ok h1 with ⟨i, lo, hi, size, rfl, rfl⟩ | ⟨i, rfl, _, rfl⟩ |
      ⟨c, seg, off, rfl, hc, rfl⟩
    · refine ⟨hle, fun c seg off hm => ?_⟩
      rcases mem_cons.mp hm with hm | hm
      · cases hm
      · exact hmem c seg off hm
    · refine ⟨hle, fun c seg off hm => ?_⟩
      rcases mem_cons.mp hm with hm | hm
      · cases hm
      · exact hmem c seg off hm
    · have hc' : c ≤ st'.checkpointSeq := hle
      refine ⟨hc.trans hc', fun c' seg' off' hm => ?_⟩
      rcases mem_cons.mp hm with hm | hm
      · cases hm
        exact hc'
      · exact hmem c' seg' off' hm

/-- The checkpoint of a manifest is that of its last `SetCheckpoint`. -/
theorem checkpoint_mem {es : List ManifestEdit} {st st' : ManifestState}
    (h : st.applyAll es = .ok st') :
    st'.checkpointSeq = st.checkpointSeq ∨
      ∃ pre seg off post, es = pre ++ .setCheckpoint st'.checkpointSeq seg off :: post := by
  induction es generalizing st st' with
  | nil =>
    cases h
    exact .inl rfl
  | cons e es ih =>
    obtain ⟨st1, h1, h⟩ := applyAll_cons.mp h
    rcases ih h with heq | ⟨pre, seg, off, post, rfl⟩
    · rcases apply_ok h1 with ⟨i, lo, hi, size, rfl, rfl⟩ | ⟨i, rfl, _, rfl⟩ |
        ⟨c, seg, off, rfl, _, rfl⟩
      · exact .inl heq
      · exact .inl heq
      · refine .inr ⟨[], seg, off, es, ?_⟩
        rw [heq]
        rfl
    · exact .inr ⟨e :: pre, seg, off, post, rfl⟩

/-! ## The chain from the tracker to the manifest -/

/-- The line to the flush thread, oldest first, each MemTable with the mark at its freeze. -/
def line (w : World) : List (FrozenTable × Nat) :=
  (w.flush.map fun j => (j.frozen, j.ckpt)).toList ++ w.queue

/-- The version is in a table file that the edits record. -/
def Settled (w : World) (es : List ManifestEdit) (e : Entry) : Prop :=
  ∃ f ∈ w.files, f.table.id ∈ addedIds es ∧ e ∈ f.table.records

/-- The version is in one of these MemTables. -/
def InTables (l : List (FrozenTable × Nat)) (e : Entry) : Prop := ∃ g ∈ l, e ∈ g.1.table.map

/-- The versions of every record up to `c` are where `P` says. -/
def Upto (w : World) (c : Nat) (P : Entry → Prop) : Prop :=
  ∀ r ∈ w.log, r.seq ≤ c → ∀ e ∈ r.entries, P e

/-- What stands ahead of each place in the line, that place included, and the recorded
tables hold everything up to its mark. -/
structure InLine (w : World) (fs : List ManifestEdit) : Prop where
  covered : ∀ l₁ f c l₂, line w = l₁ ++ (f, c) :: l₂ →
    Upto w c fun e => InTables (l₁ ++ [(f, c)]) e ∨ Settled w fs e
  applied : ∀ e ∈ appliedEntries w, e ∈ w.active.map ∨ InTables (line w) e ∨ Settled w fs e
  marks : ((line w).map (·.2) ++ [w.tracker.contiguous]).Pairwise (· ≤ ·)

/-- The edits in the manifest: tables whose files exist, and checkpoints that stand
behind the tables holding everything up to them. -/
structure Recorded (w : World) (es : List ManifestEdit) : Prop where
  noRemove : NoRemove es
  files : ∀ id ∈ addedIds es, ∃ f ∈ w.files, f.table.id = id
  covered : ∀ pre c seg off post, es = pre ++ .setCheckpoint c seg off :: post →
    Upto w c (Settled w pre)
  marks : ∀ c seg off, ManifestEdit.setCheckpoint c seg off ∈ es →
    ∀ n ∈ (line w).map (·.2) ++ [w.tracker.contiguous], c ≤ n

/-- The flush thread is past putting its table into the list. -/
def pastInstall : FlushStage → Bool
  | .start | .write _ | .add _ _ | .install _ => false
  | _ => true

/-- What the flush thread has done so far for the MemTable it is working on. -/
structure Staged (w : World) (ds : List ManifestEdit) : Prop where
  adding : ∀ j id size, w.flush = some j → j.stage = .add id size →
    ⟨writeFromMemtable j.frozen.table id, size⟩ ∈ w.files
  published : ∀ j id, w.flush = some j → j.published = some id → id ∈ addedIds ds ∧
    ∃ f ∈ w.files, f.table = writeFromMemtable j.frozen.table id
  installed : ∀ j, w.flush = some j → pastInstall j.stage = true → j.published ≠ none
  position : ∀ j p, w.flush = some j → j.checkpointMarker = some p ∨ j.stage = .await p →
    p.segmentId ≤ u64Max
  recorded : ∀ j, w.flush = some j → j.checkpointRecorded = true →
    ∃ seg off, ManifestEdit.setCheckpoint j.ckpt seg off ∈ ds
  purging : ∀ j, w.flush = some j → j.stage = .retire ∨ j.stage = .purge →
    j.checkpointRecorded = true

/-- A record that is in no segment any more lies below a synced checkpoint. -/
def WalKept (w : World) (ds : List ManifestEdit) : Prop :=
  ∀ r ∈ w.log, r ∈ segmentRecords (segments w) ∨
    ∃ c seg off, ManifestEdit.setCheckpoint c seg off ∈ ds ∧ r.seq ≤ c

/-- All links of the chain. -/
structure Chained (crc : Bytes → UInt32) (w : World) (es fs ds : List ManifestEdit) : Prop where
  logs : Logs crc w.manifest es fs ds
  inLine : InLine w fs
  recorded : Recorded w es
  staged : Staged w ds
  walKept : WalKept w ds
  idle : w.cycle = none ∧ w.garbage = []
  nextId : w.nextId ≤ u64Max

theorem staged_none (hj : w.flush = none) : Staged w ds where
  adding := by intro j id size hj'; rw [hj] at hj'; cases hj'
  published := by intro j id hj'; rw [hj] at hj'; cases hj'
  installed := by intro j hj'; rw [hj] at hj'; cases hj'
  position := by intro j p hj'; rw [hj] at hj'; cases hj'
  recorded := by intro j hj'; rw [hj] at hj'; cases hj'
  purging := by intro j hj'; rw [hj] at hj'; cases hj'

theorem chained_init (cfg : LsmConfig) : Chained crc (World.init cfg) [] [] [] where
  logs := logs_init
  inLine := {
    covered := by intro l₁ f c l₂ h; simp [line, World.init] at h
    applied := by intro e he; cases he
    marks := pairwise_singleton _ _ }
  recorded := {
    noRemove := by intro e he; cases he
    files := by intro id hid; cases hid
    covered := by intro pre c seg off post h; simp at h
    marks := by intro c seg off h; cases h }
  staged := staged_none rfl
  walKept := by intro r hr; cases hr
  idle := ⟨rfl, rfl⟩
  nextId := by show 1 ≤ u64Max; decide

/-! ## Steps that move nothing along the chain -/

section Steps

variable {fs es' fs' ds' : List ManifestEdit} {w₁ : World} {e : Entry} {n c seg off : Nat}
    {j j' : FlushJob} {stage : FlushStage} {r : WalRecord} {t : SsTable}

/-- The step leaves the log, the MemTables and the line as they are; it may add files and
move the tracker's mark up. -/
structure Same (w w₁ : World) : Prop where
  log : w₁.log = w.log
  applied : appliedEntries w₁ = appliedEntries w
  active : w₁.active = w.active
  line : line w₁ = line w
  mark : w.tracker.contiguous ≤ w₁.tracker.contiguous
  files : ∀ f ∈ w.files, f ∈ w₁.files

theorem Settled.mono (h : Settled w fs e) (hfiles : ∀ f ∈ w.files, f ∈ w₁.files)
    (hfs : fs <+: fs') : Settled w₁ fs' e := by
  obtain ⟨f, hf, hid, he⟩ := h
  exact ⟨f, hfiles f hf, addedIds_mono hfs hid, he⟩

theorem pairwise_le_mark {l : List Nat} {m : Nat} (h : (l ++ [m]).Pairwise (· ≤ ·))
    (hmn : m ≤ n) : (l ++ [n]).Pairwise (· ≤ ·) := by
  obtain ⟨hl, _, hcross⟩ := pairwise_append.mp h
  refine pairwise_append.mpr ⟨hl, pairwise_singleton _ _, fun x hx y hy => ?_⟩
  have hxm := hcross x hx m (by simp)
  have hy' := mem_singleton.mp hy
  omega

theorem InLine.same (h : InLine w fs) (hs : Same w w₁) (hfs : fs <+: fs') : InLine w₁ fs' where
  covered := by
    intro l₁ f c l₂ hl r hr hc e he
    rw [hs.line] at hl
    rw [hs.log] at hr
    exact (h.covered l₁ f c l₂ hl r hr hc e he).imp_right fun hset => hset.mono hs.files hfs
  applied := by
    intro e he
    rw [hs.applied] at he
    rw [hs.active, hs.line]
    exact (h.applied e he).imp_right fun hin => hin.imp_right fun hset => hset.mono hs.files hfs
  marks := by
    rw [hs.line]
    exact pairwise_le_mark h.marks hs.mark

theorem Recorded.mono (h : Recorded w es) (hlog : w₁.log = w.log)
    (hline : ∀ g ∈ line w₁, g ∈ line w) (hmark : w.tracker.contiguous ≤ w₁.tracker.contiguous)
    (hfiles : ∀ f ∈ w.files, f ∈ w₁.files) : Recorded w₁ es where
  noRemove := h.noRemove
  files := by
    intro id hid
    obtain ⟨f, hf, he⟩ := h.files id hid
    exact ⟨f, hfiles f hf, he⟩
  covered := by
    intro pre c seg off post heq r hr hc e he
    rw [hlog] at hr
    exact (h.covered pre c seg off post heq r hr hc e he).mono hfiles (prefix_refl _)
  marks := by
    intro c seg off hm n hn
    rcases mem_append.mp hn with hn | hn
    · obtain ⟨g, hg, rfl⟩ := mem_map.mp hn
      exact h.marks c seg off hm _ (mem_append_left _ (mem_map.mpr ⟨g, hline g hg, rfl⟩))
    · have hle := h.marks c seg off hm w.tracker.contiguous (by simp)
      have hn' := mem_singleton.mp hn
      omega

theorem Recorded.same (h : Recorded w es) (hs : Same w w₁) : Recorded w₁ es :=
  h.mono hs.log (fun _ hg => hs.line ▸ hg) hs.mark hs.files

theorem WalKept.same (h : WalKept w ds) (hlog : w₁.log = w.log)
    (hsegs : segmentRecords (segments w₁) = segmentRecords (segments w)) (hds : ds <+: ds') :
    WalKept w₁ ds' := by
  intro r hr
  rw [hlog] at hr
  rw [hsegs]
  refine (h r hr).imp_right ?_
  rintro ⟨c, seg, off, hm, hle⟩
  exact ⟨c, seg, off, hds.subset hm, hle⟩

/-- **A step off the chain.** -/
theorem Chained.same (h : Chained crc w es fs ds) (hs : Same w w₁) (hman : w₁.manifest = w.manifest)
    (hsegs : segmentRecords (segments w₁) = segmentRecords (segments w))
    (hidle : w₁.cycle = w.cycle ∧ w₁.garbage = w.garbage) (hid : w₁.nextId ≤ u64Max)
    (hst : Staged w₁ ds) : Chained crc w₁ es fs ds where
  logs := hman ▸ h.logs
  inLine := h.inLine.same hs (prefix_refl _)
  recorded := h.recorded.same hs
  staged := hst
  walKept := h.walKept.same hs.log hsegs (prefix_refl _)
  idle := ⟨hidle.1.trans h.idle.1, hidle.2.trans h.idle.2⟩
  nextId := hid

theorem line_flushTo (hj : w.flush = some j) (hq : w₁.queue = w.queue) (hfz : j'.frozen = j.frozen)
    (hck : j'.ckpt = j.ckpt) : line (w₁.flushTo j' stage) = line w := by
  simp [line, World.flushTo, hj, hq, hfz, hck]

/-- The flush thread's own step that leaves the data alone. -/
theorem same_flushTo (hj : w.flush = some j)
    (hs : w₁.log = w.log ∧ appliedEntries w₁ = appliedEntries w ∧ w₁.active = w.active ∧
      w₁.queue = w.queue) (hmark : w.tracker.contiguous ≤ w₁.tracker.contiguous)
    (hfiles : ∀ f ∈ w.files, f ∈ w₁.files) (hfz : j'.frozen = j.frozen)
    (hck : j'.ckpt = j.ckpt) : Same w (w₁.flushTo j' stage) where
  log := hs.1
  applied := hs.2.1
  active := hs.2.2.1
  line := line_flushTo hj hs.2.2.2 hfz hck
  mark := hmark
  files := hfiles

/-! ## Records enter the log and the MemTables -/

/-- The tracker's mark has been given out. -/
theorem Tracked.mark_lt (h : Tracked w) : w.tracker.contiguous < w.nextSeq :=
  (h.1 _ (Nat.le_refl _)).1

/-- So have the marks in the line. -/
theorem InLine.mark_le (h : InLine w fs) (hn : n ∈ (line w).map (·.2)) : n ≤ w.tracker.contiguous :=
  (pairwise_append.mp h.marks).2.2 n hn _ (by simp)

/-- A record under a fresh number lies above every mark. -/
theorem Upto.logRecord {P : Entry → Prop} (op : WalOp) (h : Upto w c P)
    (hc : c < w.nextSeq) : Upto (w.logRecord op) c P := by
  intro r hr hle
  rcases mem_append.mp hr with hr | hr
  · exact h r hr hle
  · have hseq : r.seq = w.nextSeq := by rw [mem_singleton.mp hr]
    omega

theorem InLine.logRecord (h : InLine w fs) (ht : Tracked w) (op : WalOp) :
    InLine (w.logRecord op) fs where
  covered := by
    intro l₁ f c l₂ hl
    refine (h.covered l₁ f c l₂ hl).logRecord op ((h.mark_le ?_).trans_lt ht.mark_lt)
    have hl' : line w = l₁ ++ (f, c) :: l₂ := hl
    simp [hl']
  applied := h.applied
  marks := h.marks

theorem Recorded.logRecord (h : Recorded w es) (ht : Tracked w) (op : WalOp) :
    Recorded (w.logRecord op) es where
  noRemove := h.noRemove
  files := h.files
  covered := by
    intro pre c seg off post heq
    have hle := h.marks c seg off (by simp [heq]) w.tracker.contiguous (by simp)
    exact (h.covered pre c seg off post heq).logRecord op (hle.trans_lt ht.mark_lt)
  marks := h.marks

theorem WalKept.logRecord (h : WalKept w ds) (op : WalOp) : WalKept (w.logRecord op) ds := by
  have hsplit : segmentRecords (segments (w.logRecord op)) =
      segmentRecords (segments w) ++ [⟨w.nextSeq, op⟩] := by
    simp [segments, World.logRecord, segmentRecords_append, segmentRecords_single]
  intro r hr
  rw [hsplit]
  rcases mem_append.mp hr with hr | hr
  · exact (h r hr).imp_left (mem_append_left _)
  · exact .inl (mem_append_right _ hr)

theorem Chained.logRecord (h : Chained crc w es fs ds) (ht : Tracked w) (op : WalOp) :
    Chained crc (w.logRecord op) es fs ds where
  logs := h.logs
  inLine := h.inLine.logRecord ht op
  recorded := h.recorded.logRecord ht op
  staged := { h.staged with }
  walKept := h.walKept.logRecord op
  idle := h.idle
  nextId := h.nextId

/-- An apply keeps what was applied before and adds the record. -/
theorem InLine.applyRecord (h : InLine w fs) (hn : Numbered w)
    (hr : r ∈ w.pending) : InLine (w.applyRecord r) fs where
  covered := h.covered
  applied := by
    intro e he
    rw [appliedEntries_concat (r := r) rfl] at he
    rcases mem_append.mp he with he | he
    · refine (h.applied e he).imp_left fun hact => applyWalOp_keeps hact fun hseq => ?_
      -- a version under the number of `r` would make `r` an applied record
      obtain ⟨r', hr', he'⟩ := mem_appliedEntries.mp he
      obtain ⟨hlog, hnot, _⟩ := hn.pending r hr
      rw [entries_seq he'] at hseq
      exact hnot (hn.unique (hn.applied r' hr').1 hlog hseq ▸ hr')
    · exact .inl (entries_mem_applyWalOp he)
  marks := pairwise_le_mark h.marks (contiguous_account_le _ _)

theorem Chained.applyRecord (h : Chained crc w es fs ds) (hn : Numbered w)
    (hr : r ∈ w.pending) : Chained crc (w.applyRecord r) es fs ds where
  logs := h.logs
  inLine := h.inLine.applyRecord hn hr
  recorded := h.recorded.mono rfl (fun _ hg => hg) (contiguous_account_le _ _) fun _ hf => hf
  staged := { h.staged with }
  walKept := h.walKept
  idle := h.idle
  nextId := h.nextId

theorem line_freeze (w : World) :
    line w.freeze = line w ++ [(⟨w.nextUid, w.active⟩, w.tracker.contiguous)] := by
  simp [line, World.freeze]

/-- **A freeze closes the line:** with the tracker's mark, everything up to it is in the
MemTable, in the line, or recorded. -/
theorem InLine.freeze (h : InLine w fs) (ht : Tracked w) : InLine w.freeze fs where
  covered := by
    intro l₁ f c l₂ hl
    rw [line_freeze] at hl
    rcases eq_nil_or_concat l₂ with rfl | ⟨l₂, y, rfl⟩
    · -- the MemTable just frozen
      obtain ⟨rfl, hx⟩ := append_inj' hl rfl
      obtain ⟨rfl, rfl⟩ := Prod.mk.inj (singleton_inj.mp hx)
      intro r hr hle e he
      have hap : e ∈ appliedEntries w :=
        mem_appliedEntries.mpr ⟨r, (ht.1 r.seq hle).2 r hr rfl, he⟩
      rcases h.applied e hap with hact | ⟨g, hg, he⟩ | hset
      · exact .inl ⟨_, mem_append_right _ (mem_singleton_self _), hact⟩
      · exact .inl ⟨g, mem_append_left _ hg, he⟩
      · exact .inr hset
    · have hl' : line w ++ [(⟨w.nextUid, w.active⟩, w.tracker.contiguous)] =
          (l₁ ++ (f, c) :: l₂) ++ [y] := by simpa using hl
      exact h.covered l₁ f c l₂ (append_inj' hl' rfl).1
  applied := by
    intro e he
    rw [line_freeze]
    rcases h.applied e he with hact | ⟨g, hg, he⟩ | hset
    · exact .inr (.inl ⟨_, mem_append_right _ (mem_singleton_self _), hact⟩)
    · exact .inr (.inl ⟨g, mem_append_left _ hg, he⟩)
    · exact .inr (.inr hset)
  marks := by
    rw [line_freeze, map_append]
    refine pairwise_append.mpr ⟨h.marks, pairwise_singleton _ _, fun n hn m hm => ?_⟩
    have hm' : m = w.tracker.contiguous := mem_singleton.mp hm
    rcases mem_append.mp hn with hn | hn
    · have := h.mark_le hn
      omega
    · have hn' : n = w.tracker.contiguous := mem_singleton.mp hn
      omega

theorem Recorded.freeze (h : Recorded w es) : Recorded w.freeze es where
  noRemove := h.noRemove
  files := h.files
  covered := h.covered
  marks := by
    intro c seg off hm n hn
    rw [line_freeze, map_append] at hn
    rcases mem_append.mp hn with hn | hn
    · exact h.marks c seg off hm n hn
    · have hn' : n = w.tracker.contiguous := mem_singleton.mp hn
      exact hn' ▸ h.marks c seg off hm _ (by simp)

theorem Chained.freeze (h : Chained crc w es fs ds) (ht : Tracked w) :
    Chained crc w.freeze es fs ds where
  logs := h.logs
  inLine := h.inLine.freeze ht
  recorded := h.recorded.freeze
  staged := { h.staged with }
  walKept := h.walKept
  idle := h.idle
  nextId := h.nextId

/-! ## The flush thread -/

/-- `Staged` for the job at hand. -/
theorem Staged.of_job {w₁ : World} {j : FlushJob} (hj : w₁.flush = some j)
    (hadd : ∀ id size, j.stage = .add id size →
      ⟨writeFromMemtable j.frozen.table id, size⟩ ∈ w₁.files)
    (hpub : ∀ id, j.published = some id → id ∈ addedIds ds ∧
      ∃ f ∈ w₁.files, f.table = writeFromMemtable j.frozen.table id)
    (hins : pastInstall j.stage = true → j.published ≠ none)
    (hpos : ∀ p, j.checkpointMarker = some p ∨ j.stage = .await p → p.segmentId ≤ u64Max)
    (hrec : j.checkpointRecorded = true →
      ∃ seg off, ManifestEdit.setCheckpoint j.ckpt seg off ∈ ds)
    (hpurge : j.stage = .retire ∨ j.stage = .purge → j.checkpointRecorded = true) :
    Staged w₁ ds := by
  have huniq : ∀ k, w₁.flush = some k → k = j := fun k hk => Option.some.inj (hk.symm.trans hj)
  exact {
    adding := fun k id size hk => huniq k hk ▸ hadd id size
    published := fun k id hk => huniq k hk ▸ hpub id
    installed := fun k hk => huniq k hk ▸ hins
    position := fun k p hk => huniq k hk ▸ hpos p
    recorded := fun k hk => huniq k hk ▸ hrec
    purging := fun k hk => huniq k hk ▸ hpurge }

/-- What was published stays so. -/
theorem Staged.stillPublished {w₁ : World} {j : FlushJob} (h : Staged w ds)
    (hj : w.flush = some j) (hfiles : ∀ f ∈ w.files, f ∈ w₁.files) (hds : ds <+: ds') {id : Nat}
    (hp : j.published = some id) : id ∈ addedIds ds' ∧
      ∃ f ∈ w₁.files, f.table = writeFromMemtable j.frozen.table id := by
  obtain ⟨hid, f, hf, hft⟩ := h.published j id hj hp
  exact ⟨addedIds_mono hds hid, f, hfiles f hf, hft⟩

theorem Staged.stillRecorded {j : FlushJob} (h : Staged w ds) (hj : w.flush = some j)
    (hds : ds <+: ds') (hr : j.checkpointRecorded = true) :
    ∃ seg off, ManifestEdit.setCheckpoint j.ckpt seg off ∈ ds' := by
  obtain ⟨seg, off, hm⟩ := h.recorded j hj hr
  exact ⟨seg, off, hds.subset hm⟩

/-- The flush thread goes on without a new id, marker or table. -/
theorem Staged.next {w₁ : World} {j : FlushJob} {stage : FlushStage} (h : Staged w ds)
    (hj : w.flush = some j) (hfiles : ∀ f ∈ w.files, f ∈ w₁.files) (hds : ds <+: ds')
    (hadd : ∀ id size, stage ≠ .add id size) (hawait : ∀ p, stage ≠ .await p)
    (hpast : pastInstall stage = true → j.published ≠ none)
    (hpurge : stage = .retire ∨ stage = .purge → j.checkpointRecorded = true) :
    Staged (w₁.flushTo j stage) ds' := by
  refine .of_job rfl (fun id size hst => absurd hst (hadd id size))
    (fun id hp => h.stillPublished hj hfiles hds hp) hpast (fun p hp => ?_)
    (fun hr => h.stillRecorded (j := j) hj hds hr) hpurge
  rcases hp with hp | hp
  · exact h.position j p hj (.inl hp)
  · exact absurd hp (hawait p)

/-- The attempt failed and is retried. -/
theorem Staged.retry (h : Staged w ds) (hj : w.flush = some j)
    (hfiles : ∀ f ∈ w.files, f ∈ w₁.files) (hds : ds <+: ds') : Staged (w₁.flushRetry j) ds' :=
  h.next hj hfiles hds (by simp) (by simp) (by simp [pastInstall]) (by simp)

/-- What the flush thread has published is recorded. -/
theorem Staged.settled (h : Staged w ds) (hj : w.flush = some j) (hp : j.published ≠ none)
    (he : e ∈ j.frozen.table.map) : Settled w ds e := by
  obtain ⟨id, hid⟩ := Option.ne_none_iff_exists'.mp hp
  obtain ⟨hadd, f, hf, hft⟩ := h.published j id hj hid
  refine ⟨f, hf, ?_, ?_⟩
  · rw [hft]
    exact hadd
  · rw [hft]
    exact he

/-- **Everything up to the mark of the MemTable being flushed is recorded** once its table
is. -/
theorem Chained.settled_upto (h : Chained crc w es fs ds) (hj : w.flush = some j)
    (hp : j.published ≠ none) : Upto w j.ckpt (Settled w fs) := by
  intro r hr hle e he
  have hl : line w = [] ++ (j.frozen, j.ckpt) :: w.queue := by simp [line, hj]
  rcases h.inLine.covered [] j.frozen j.ckpt w.queue hl r hr hle e he with ⟨g, hg, heg⟩ | hset
  · obtain rfl := mem_singleton.mp hg
    exact (h.staged.settled hj hp heg).mono (fun _ hf => hf) h.logs.floor.1
  · exact hset

/-- The job is done and leaves the line. -/
theorem InLine.leave {w₁ : World} {j : FlushJob} (h : InLine w fs) (hj : w.flush = some j)
    (hw : w₁.log = w.log ∧ appliedEntries w₁ = appliedEntries w ∧ w₁.active = w.active ∧
      w₁.files = w.files ∧ w₁.tracker = w.tracker) (hline : line w₁ = w.queue)
    (hset : ∀ e ∈ j.frozen.table.map, Settled w fs e) : InLine w₁ fs := by
  obtain ⟨hlog, hap, hact, hfiles, htr⟩ := hw
  have hl : line w = (j.frozen, j.ckpt) :: w.queue := by simp [line, hj]
  have hset₁ : ∀ e, Settled w fs e → Settled w₁ fs e :=
    fun e he => he.mono (fun f hf => hfiles ▸ hf) (prefix_refl _)
  exact {
    covered := by
      intro l₁ f c l₂ hsplit r hr hle e he
      rw [hline] at hsplit
      rw [hlog] at hr
      have hcov := h.covered ((j.frozen, j.ckpt) :: l₁) f c l₂ (by rw [hl, hsplit]; rfl)
      rcases hcov r hr hle e he with ⟨g, hg, heg⟩ | hs
      · rcases mem_cons.mp hg with rfl | hg
        · exact .inr (hset₁ e (hset e heg))
        · exact .inl ⟨g, hg, heg⟩
      · exact .inr (hset₁ e hs)
    applied := by
      intro e he
      rw [hap] at he
      rw [hact, hline]
      rcases h.applied e he with ha | ⟨g, hg, heg⟩ | hs
      · exact .inl ha
      · rw [hl] at hg
        rcases mem_cons.mp hg with rfl | hg
        · exact .inr (.inr (hset₁ e (hset e heg)))
        · exact .inr (.inl ⟨g, hg, heg⟩)
      · exact .inr (.inr (hset₁ e hs))
    marks := by
      have hm := h.marks
      rw [hl] at hm
      rw [hline, htr]
      exact (pairwise_cons.mp hm).2 }

/-- **Purging is safe:** what goes lies below a synced checkpoint. -/
theorem WalKept.purge {j : FlushJob} {kept : List Nat} (h : WalKept w ds) (hseg : Segmented w)
    (hck : ∃ seg off, ManifestEdit.setCheckpoint j.ckpt seg off ∈ ds) :
    WalKept (w.purgeBefore j.ckpt kept) ds := by
  intro r hr
  rcases h r hr with hin | hout
  · obtain ⟨s, hs, hrs⟩ := mem_segmentRecords.mp hin
    rcases mem_append.mp hs with hs | hs
    · by_cases hkeep : ¬ s.sealedMax < j.ckpt ∨ s.id ∈ kept
      · refine .inl (mem_segmentRecords.mpr ⟨s, mem_append_left _ ?_, hrs⟩)
        exact mem_filter.mpr ⟨hs, by simpa using hkeep⟩
      · obtain ⟨seg, off, hm⟩ := hck
        have hmax := hseg.sealedMax s hs r hrs
        exact .inr ⟨j.ckpt, seg, off, hm, by omega⟩
    · exact .inl (mem_segmentRecords.mpr ⟨s, mem_append_right _ hs, hrs⟩)
  · exact .inr hout

/-! ## Edits enter the manifest -/

theorem minSeq_le_maxSeq (t : SsTable) : t.minSeq ≤ t.maxSeq := by
  unfold SsTable.minSeq SsTable.maxSeq
  cases hmin : (t.records.map (·.seq)).min? with
  | none => exact Nat.zero_le _
  | some lo =>
    have hlo := (min?_eq_some_iff.mp hmin).1
    cases hmax : (t.records.map (·.seq)).max? with
    | none => simp [max?_eq_none_iff.mp hmax] at hlo
    | some hi => exact (max?_eq_some_iff.mp hmax).2 lo hlo

theorem maxSeq_le (h : ∀ e ∈ t.records, e.seq ≤ n) : t.maxSeq ≤ n := by
  unfold SsTable.maxSeq
  cases hmax : (t.records.map (·.seq)).max? with
  | none => exact Nat.zero_le _
  | some hi =>
    obtain ⟨e, he, rfl⟩ := mem_map.mp (max?_eq_some_iff.mp hmax).1
    exact h e he

theorem uint64_le (n : UInt64) : n.toNat ≤ u64Max := by
  have := n.toNat_lt
  show n.toNat ≤ 2 ^ 64 - 1
  omega

theorem addEdit_wf (size : UInt64) (hid : t.id ≤ u64Max)
    (hseq : ∀ e ∈ t.records, e.seq ≤ u64Max) : (addEdit t size).Wf :=
  ⟨hid, minSeq_le_maxSeq t, maxSeq_le hseq, uint64_le size⟩

/-- A table can always be recorded. -/
theorem applies_add (size : UInt64) (h : ∃ st, ManifestState.applyAll {} es = .ok st) :
    ∃ st, ManifestState.applyAll {} (es ++ [addEdit t size]) = .ok st := by
  obtain ⟨st, hst⟩ := h
  obtain ⟨st', hst'⟩ : ∃ st', st.apply (addEdit t size) = .ok st' := ⟨_, rfl⟩
  exact ⟨st', applyAll_append.mpr ⟨st, hst, applyAll_cons.mpr ⟨st', hst', rfl⟩⟩⟩

/-- A checkpoint can be recorded if it is not below an earlier one. -/
theorem applies_checkpoint (h : ∃ st, ManifestState.applyAll {} es = .ok st)
    (hc : ∀ c' seg' off', ManifestEdit.setCheckpoint c' seg' off' ∈ es → c' ≤ c) :
    ∃ st, ManifestState.applyAll {} (es ++ [.setCheckpoint c seg off]) = .ok st := by
  obtain ⟨st, hst⟩ := h
  have hle : st.checkpointSeq ≤ c := by
    rcases checkpoint_mem hst with h0 | ⟨pre, seg', off', post, heq⟩
    · rw [h0]
      exact Nat.zero_le _
    · exact hc _ seg' off' (by rw [heq]; simp)
  obtain ⟨st', hst'⟩ : ∃ st', st.apply (.setCheckpoint c seg off) = .ok st' := by
    simp only [ManifestState.apply]
    cases hcp : st.checkpoint with
    | none => exact ⟨_, rfl⟩
    | some cp =>
      have hcp' : cp.flushedThroughSeq ≤ c := by
        simpa [ManifestState.checkpointSeq, hcp] using hle
      rw [if_neg (by simpa using hcp')]
      exact ⟨_, rfl⟩
  exact ⟨st', applyAll_append.mpr ⟨st, hst, applyAll_cons.mpr ⟨st', hst', rfl⟩⟩⟩

theorem Recorded.initial (h : Recorded w es) (hes : es' <+: es) : Recorded w es' where
  noRemove := fun e he => h.noRemove e (hes.subset he)
  files := fun id hid => h.files id (addedIds_mono hes hid)
  covered := by
    intro pre c seg off post heq
    obtain ⟨rest, hrest⟩ := hes
    exact h.covered pre c seg off (post ++ rest) (by rw [← hrest, heq]; simp)
  marks := fun c seg off hm => h.marks c seg off (hes.subset hm)

/-- An edit put at the end: a checkpoint among the edits is an old one or the new one. -/
theorem split_concat {e x : ManifestEdit} {pre post : List ManifestEdit}
    (h : es ++ [e] = pre ++ x :: post) :
    (∃ post', es = pre ++ x :: post') ∨ (pre = es ∧ x = e) := by
  rcases eq_nil_or_concat post with rfl | ⟨post, y, rfl⟩
  · obtain ⟨hpre, hx⟩ := append_inj' h rfl
    exact .inr ⟨hpre.symm, (singleton_inj.mp hx).symm⟩
  · have h' : es ++ [e] = (pre ++ x :: post) ++ [y] := by simpa using h
    exact .inl ⟨post, (append_inj' h' rfl).1⟩

/-- One more edit: no removal, a table whose file exists, or a checkpoint the tables stand
behind. -/
theorem Recorded.concat {e : ManifestEdit} (h : Recorded w es)
    (hremove : ∀ id, e ≠ .removeSstable id)
    (hfile : ∀ id lo hi size, e = .addSstable id lo hi size → ∃ f ∈ w.files, f.table.id = id)
    (hck : ∀ c seg off, e = .setCheckpoint c seg off → Upto w c (Settled w es) ∧
      ∀ n ∈ (line w).map (·.2) ++ [w.tracker.contiguous], c ≤ n) : Recorded w (es ++ [e]) where
  noRemove := by
    intro e' he' id
    rcases mem_append.mp he' with he' | he'
    · exact h.noRemove e' he' id
    · exact mem_singleton.mp he' ▸ hremove id
  files := by
    intro id hid
    obtain ⟨lo, hi, sz, he⟩ := mem_addedIds.mp hid
    rcases mem_append.mp he with he | he
    · exact h.files id (mem_addedIds.mpr ⟨lo, hi, sz, he⟩)
    · exact hfile id lo hi sz (mem_singleton.mp he).symm
  covered := by
    intro pre c seg off post heq
    rcases split_concat heq with ⟨post', heq'⟩ | ⟨rfl, hx⟩
    · exact h.covered pre c seg off post' heq'
    · exact (hck c seg off hx.symm).1
  marks := by
    intro c seg off hm
    rcases mem_append.mp hm with hm | hm
    · exact h.marks c seg off hm
    · exact (hck c seg off (mem_singleton.mp hm).symm).2

theorem Recorded.add {t : SsTable} {size : UInt64} (h : Recorded w es)
    (hf : ∃ f ∈ w.files, f.table.id = t.id) : Recorded w (es ++ [addEdit t size]) :=
  h.concat (by simp [addEdit]) (fun _ _ _ _ he => (ManifestEdit.addSstable.inj he).1 ▸ hf)
    (by simp [addEdit])

theorem Recorded.checkpoint (h : Recorded w es) (hcov : Upto w c (Settled w es))
    (hmark : ∀ n ∈ (line w).map (·.2) ++ [w.tracker.contiguous], c ≤ n) :
    Recorded w (es ++ [.setCheckpoint c seg off]) :=
  h.concat (by simp) (by simp) fun _ _ _ he =>
    (ManifestEdit.setCheckpoint.inj he).1 ▸ ⟨hcov, hmark⟩

/-- **One append of the flush thread,** whatever fails in it. -/
theorem Chained.append {m : Manifest} {ok : Bool} {e : ManifestEdit} {fault : AppendFault}
    {j j' : FlushJob} {stage : FlushStage} (h : Chained crc w es fs ds) (hj : w.flush = some j)
    (hwf : e.Wf) (happ : ∃ st, ManifestState.applyAll {} (es ++ [e]) = .ok st)
    (hroll : NoStaleRollback w.manifest fault)
    (hr : w.manifest.appendSync crc e fault = (m, ok)) (hrec : Recorded w (es ++ [e]))
    (hfz : j'.frozen = j.frozen) (hck : j'.ckpt = j.ckpt)
    (hst : ∀ ds', ds <+: ds' → (ok = true → ds' = es ++ [e]) →
      Staged ((w.setManifest m).flushTo j' stage) ds') :
    ∃ es' fs' ds', Chained crc ((w.setManifest m).flushTo j' stage) es' fs' ds' := by
  obtain ⟨es', fs', ds', hlogs, hes', hfs', hds', hok⟩ := logs_appendSync h.logs hwf happ hroll hr
  have hsame : Same w ((w.setManifest m).flushTo j' stage) :=
    same_flushTo hj ⟨rfl, rfl, rfl, rfl⟩ (Nat.le_refl _) (fun _ hf => hf) hfz hck
  have hrec' : Recorded w es' := by
    rcases hes' with hes' | rfl
    · exact h.recorded.initial hes'
    · exact hrec
  exact ⟨es', fs', ds', {
    logs := hlogs
    inLine := h.inLine.same hsame hfs'
    recorded := hrec'.same hsame
    staged := hst ds' hds' fun hok' => (hok hok').2.2
    walKept := h.walKept.same rfl rfl hds'
    idle := h.idle
    nextId := h.nextId }⟩

end Steps

end RubixDb.Proof
