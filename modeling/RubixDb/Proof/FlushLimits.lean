import RubixDb.Lib.Crc32c
import RubixDb.Proof.Tracking
import RubixDb.Proof.WalCodec
import RubixDb.Storage.SstFormat

/-!
# What the WAL accepts and what a flush can write

The WAL bounds a whole record; an SSTable bounds each key and each value on its own, and a
key far more tightly than the WAL does. A key between the two bounds is accepted, applied
and acknowledged, and its MemTable can then never be written: every attempt of the flush
thread fails on it.

As long as no request carries such a key or value every frozen MemTable can be written
(`frozen_tables_can_be_written`). The invariant behind it, `Small`, is about the records
of the WAL as well, because opening the engine fills the active MemTable from them.
-/

namespace RubixDb.Proof

open Lib List

/-! ## Records an SSTable takes -/

variable {e : Entry} {m : MemTable} {maxRecordLen : Nat}

/-- The version fits the limits of the SSTable format. -/
def FitsTable (e : Entry) : Prop :=
  e.key.length ≤ maxKeySize ∧ e.value.payloadLen ≤ maxValueSize

instance (e : Entry) : Decidable (FitsTable e) := inferInstanceAs (Decidable (_ ∧ _))

theorem length_recordValue (v : MemtableValue) : (recordValue v).2.length = v.payloadLen := by
  cases v <;> rfl

/-- **`encode_record` accepts exactly the versions that fit.** -/
theorem encodeRecord_isOk_iff (e : Entry) : (encodeRecord e).isOk = true ↔ FitsTable e := by
  unfold encodeRecord checkedLen FitsTable
  simp only [length_recordValue]
  by_cases hk : maxKeySize < e.key.length
  · rw [if_pos hk]
    exact iff_of_false (by simp [Except.isOk, Except.toBool, bind, Except.bind]) (by omega)
  · by_cases hv : maxValueSize < e.value.payloadLen
    · rw [if_neg hk, if_pos hv]
      exact iff_of_false (by simp [Except.isOk, Except.toBool, bind, Except.bind]) (by omega)
    · rw [if_neg hk, if_neg hv]
      exact iff_of_true rfl ⟨by omega, by omega⟩

section Write

variable {α β : Type} {P : α → Prop} {Q : β → Prop} {b : TableBuild}

/-- The build goes on with something that satisfies `P`, or ends for another reason than the
size of a record. -/
def Passes (P : α → Prop) : Except SstError α → Prop
  | .ok a => P a
  | .error err => ∀ requested max, err ≠ .recordTooLarge requested max

theorem Passes.bind {x : Except SstError α} {f : α → Except SstError β} (h : Passes P x)
    (hf : ∀ a, P a → Passes Q (f a)) : Passes Q (x >>= f) := by
  cases x with
  | ok a => exact hf a h
  | error err => exact h

variable {crc : Bytes → UInt32} {targetBlockSize : Nat}

/-- The keys the index block will name fit. -/
def KeysFit (b : TableBuild) : Prop :=
  b.blockLastKey.length ≤ maxKeySize ∧ ∀ entry ∈ b.index, entry.lastKey.length ≤ maxKeySize

theorem passes_finishBlock (h : KeysFit b) : Passes KeysFit (finishBlock crc b) := by
  unfold finishBlock
  dsimp only
  split
  · exact fun _ _ => by simp
  split
  · exact fun _ _ => by simp
  · refine ⟨Nat.zero_le _, fun entry hentry => ?_⟩
    rcases mem_append.mp hentry with hentry | hentry
    · exact h.2 entry hentry
    · rw [mem_singleton.mp hentry]
      exact h.1

theorem passes_addRecord (h : KeysFit b) (he : FitsTable e) :
    Passes KeysFit (addRecord crc targetBlockSize b e) := by
  unfold addRecord
  cases henc : encodeRecord e with
  | error err =>
    have hok := (encodeRecord_isOk_iff e).mpr he
    rw [henc] at hok
    cases hok
  | ok bytes =>
    have hkeys : KeysFit { b with
        blockRecords := b.blockRecords ++ bytes
        blockRecordCount := b.blockRecordCount + 1
        blockLastKey := e.key } := ⟨he.1, h.2⟩
    rw [ok_bind]
    dsimp only
    split
    · exact passes_finishBlock hkeys
    · exact hkeys

theorem passes_addRecords : ∀ {es : List Entry} {b : TableBuild}, KeysFit b →
    (∀ e ∈ es, FitsTable e) → Passes KeysFit (addRecords crc targetBlockSize b es) := by
  intro es
  induction es with
  | nil => exact fun hb _ => hb
  | cons e es ih =>
    intro b hb hes
    refine (passes_addRecord hb (hes e (by simp))).bind fun b₁ hb₁ => ?_
    exact ih hb₁ fun e he => hes e (mem_cons_of_mem _ he)

theorem passes_finishLastBlock (h : KeysFit b) : Passes KeysFit (finishLastBlock crc b) := by
  unfold finishLastBlock
  split
  · exact passes_finishBlock h
  · exact h

theorem passes_encodeIndexEntries : ∀ {entries : List IndexEntry},
    (∀ entry ∈ entries, entry.lastKey.length ≤ maxKeySize) →
    Passes (fun _ => True) (encodeIndexEntries entries) := by
  intro entries
  induction entries with
  | nil => exact fun _ => trivial
  | cons entry entries ih =>
    intro h
    have hfit : checkedLen entry.lastKey.length maxKeySize = .ok () :=
      if_neg (Nat.not_lt.mpr (h entry (by simp)))
    have hrest := ih fun x hx => h x (mem_cons_of_mem _ hx)
    rw [encodeIndexEntries, encodeIndexEntry, hfit]
    exact hrest.bind fun _ _ => trivial

theorem passes_encodeIndexBlock {entries : List IndexEntry}
    (h : ∀ entry ∈ entries, entry.lastKey.length ≤ maxKeySize) :
    Passes (fun _ => True) (encodeIndexBlock crc entries) := by
  unfold encodeIndexBlock
  split
  · exact fun _ _ => by simp
  · exact (passes_encodeIndexEntries h).bind fun _ _ => trivial

/-- **A MemTable whose versions fit** is not refused for the size of a record. -/
theorem passes_encodeTable {m : MemTable} (h : ∀ e ∈ m.map, FitsTable e) :
    Passes (fun _ => True) (encodeTable crc targetBlockSize m) := by
  have hempty : KeysFit {} := ⟨Nat.zero_le _, by simp⟩
  refine (passes_addRecords hempty fun e he => h e (mem_filter.mp he).1).bind fun b hb => ?_
  refine (passes_finishLastBlock hb).bind fun b₁ hb₁ => ?_
  exact (passes_encodeIndexBlock hb₁.2).bind fun _ _ => trivial

end Write

/-! ## Along a run -/

/-- Every version the record stands for fits. -/
def FitsTables (r : WalRecord) : Prop := ∀ e ∈ r.entries, FitsTable e

/-- The request the step logs. -/
def request : Act → Option WalOp
  | .append op => some op
  | _ => none

/-- A request is logged only with keys and values that an SSTable takes. Of the members of a
batch that share a key only the last counts: it is the one the MemTable keeps. -/
def RequestFits (w : World) (a : Act) : Prop := ∀ op ∈ request a, FitsTables ⟨w.nextSeq, op⟩

instance (w : World) (a : Act) : Decidable (RequestFits w a) :=
  inferInstanceAs (Decidable (∀ op ∈ request a, ∀ e ∈ (⟨w.nextSeq, op⟩ : WalRecord).entries,
    FitsTable e))

/-- Every version in the MemTables, and every one a record of the WAL stands for, fits. -/
structure Small (w : World) : Prop where
  logged : ∀ r ∈ segmentRecords (segments w), FitsTables r
  pending : ∀ r ∈ w.pending, FitsTables r
  active : ∀ e ∈ w.active.map, FitsTable e
  immutables : ∀ f ∈ w.immutables, ∀ e ∈ f.table.map, FitsTable e
  unflushed : ∀ f ∈ unflushed w, ∀ e ∈ f.table.map, FitsTable e

theorem small_init (cfg : LsmConfig) : Small (World.init cfg) where
  logged := by intro r hr; cases hr
  pending := by intro r hr; cases hr
  active := by intro e he; cases he
  immutables := by intro f hf; cases hf
  unflushed := by intro f hf; cases hf

variable {crc : Bytes → UInt32} {w w' : World} {a : Act}

theorem Small.logRecord {op : WalOp} (h : Small w) (hop : FitsTables ⟨w.nextSeq, op⟩) :
    Small (w.logRecord op) :=
  { h with
    logged := by
      intro r hr
      rw [segmentRecords_logRecord] at hr
      rcases mem_append.mp hr with hr | hr
      · exact h.logged r hr
      · exact mem_singleton.mp hr ▸ hop }

theorem Small.rotate (h : Small w) : Small w.rotate :=
  { h with logged := by rw [segmentRecords_rotate]; exact h.logged }

theorem Small.applyRecord {r : WalRecord} (h : Small w) (hr : r ∈ w.pending) :
    Small (w.applyRecord r) :=
  { h with
    pending := fun r' hr' => h.pending r' (mem_filter.mp hr').1
    active := by
      intro e he
      rcases mem_applyWalOp he with he | he
      · exact h.pending r hr e he
      · exact h.active e he }

theorem Small.freeze (h : Small w) : Small w.freeze :=
  { h with
    active := by intro e he; cases he
    immutables := by
      intro f hf
      rcases mem_cons.mp hf with rfl | hf
      · exact h.active
      · exact h.immutables f hf
    unflushed := by
      rw [unflushed_freeze]
      intro f hf
      rcases mem_cons.mp hf with rfl | hf
      · exact h.active
      · exact h.unflushed f hf }

theorem Small.purgeBefore (h : Small w) (ckpt : Nat) (kept : List Nat) :
    Small (w.purgeBefore ckpt kept) :=
  { h with
    logged := fun r hr => h.logged r ((segmentRecords_sublist
      (filter_sublist.append (List.Sublist.refl _))).subset hr) }

/-- The flush thread going on with its MemTable. -/
theorem Small.flushTo {w₁ : World} {j j' : FlushJob} {stage : FlushStage} (h : Small w₁)
    (hj : w₁.flush = some j) (hj' : j'.frozen = j.frozen) : Small (w₁.flushTo j' stage) :=
  { h with unflushed := by rw [unflushed_flushTo hj rfl hj']; exact h.unflushed }

/-- A marker writes nothing to a MemTable. -/
theorem fitsTables_marker (seq n : Nat) : FitsTables ⟨seq, .checkpointMarker n⟩ := by
  intro e he
  cases he

/-- Where requests fit, every version goes on fitting. -/
theorem small_step (h : Small w) (hf : Filed w) (hfit : RequestFits w a) (hs : Step crc w a w') :
    Small w' := by
  cases hs with
  | @append op =>
    have hop := hfit op rfl
    exact { h.logRecord hop with
      pending := by
        intro r hr
        rcases mem_append.mp hr with hr | hr
        · exact h.pending r hr
        · exact mem_singleton.mp hr ▸ hop }
  | rotateWal => exact h.rotate
  | applyRefused hr => exact h.applyRecord hr
  | applyFreeze hr => exact { (h.applyRecord hr).freeze with }
  | apply hr => exact { h.applyRecord hr with }
  | flushRecv hfl hq =>
    exact { h with unflushed := by rw [unflushed_recv hfl hq]; exact h.unflushed }
  | flushRotate hj => exact h.rotate.flushTo hj rfl
  | flushMarker hj => exact (h.logRecord (fitsTables_marker _ _)).flushTo hj rfl
  | @flushRetire j hj =>
    have hret : Small (w.retire j.frozen) :=
      { h with immutables := fun f hf => h.immutables f (mem_filter.mp hf).1 }
    exact hret.flushTo hj rfl
  | @flushPurge j hj =>
    exact { h.purgeBefore j.ckpt [] with
      unflushed := by
        intro f hf
        refine h.unflushed f ?_
        rw [unflushed_purge hj]
        exact mem_append_left _ hf }
  | @flushPurgeFail j kept hj => exact (h.purgeBefore j.ckpt kept).flushTo hj rfl
  | flushBegin hj | flushResume hj | flushWrite hj | flushAdd hj | flushAddFail hj | flushInstall hj
  | flushInstalled hj | flushInstallGone hj | flushAwait hj | flushCheckpointDone hj
  | flushCheckpoint hj | flushCheckpointFail hj | flushFail hj =>
    exact Small.flushTo { h with } hj rfl
  | @reopen n k lost w₁ _ _ _ hopen =>
    obtain ⟨m, r, ho⟩ := openEngine_ok (hf.nodup.sublist (filter_sublist.map _)) hopen
    obtain ⟨him, hq, hfl, _, _, hp⟩ := ho.idle
    have hcut : ∀ r ∈ segmentRecords (w.cutSegments k), FitsTables r := by
      intro r hr
      rw [segmentRecords_cut] at hr
      exact h.logged r (mem_filter.mp hr).1
    exact {
      logged := by
        intro r hr
        have hr' : r ∈ segmentRecords (segments w₁) := hr
        rw [opened_segmentRecords ho (cutSegments_ne_nil w k)] at hr'
        exact hcut r hr'
      pending := by
        intro r hr
        rw [show _ = _ from hp] at hr
        cases hr
      -- a reopen replays what the log still holds
      active := by
        intro e he
        rw [show _ = _ from ho.active] at he
        rcases mem_replayWal he with he | ⟨r, hr, _, he⟩
        · cases he
        · exact hcut r hr e he
      immutables := by
        intro f hf
        rw [show _ = _ from him] at hf
        cases hf
      unflushed := by
        intro f hf
        have hnone : Proof.unflushed w₁ = [] := by simp [Proof.unflushed, hq, hfl]
        have hf' : f ∈ Proof.unflushed w₁ := hf
        rw [hnone] at hf'
        cases hf' }
  | _ => exact { h with }

/-- What a flush of the MemTable needs of it. -/
structure CanBeWritten (m : MemTable) : Prop where
  records : ∀ e ∈ m.map, (encodeRecord e).isOk = true
  table : ∀ (crc : Bytes → UInt32) (targetBlockSize requested max : Nat),
    encodeTable crc targetBlockSize m ≠ .error (.recordTooLarge requested max)

theorem canBeWritten_of_fits (h : ∀ e ∈ m.map, FitsTable e) : CanBeWritten m where
  records := fun e he => (encodeRecord_isOk_iff e).mpr (h e he)
  table := by
    intro crc targetBlockSize requested max heq
    have hpass := @passes_encodeTable crc targetBlockSize m h
    rw [heq] at hpass
    exact hpass requested max rfl

/-- **Every frozen MemTable can be written** in a run in which every request that is logged
fits an SSTable: those a read still goes to, those in the queue and the one the flush thread
is at. -/
theorem frozen_tables_can_be_written {cfg : LsmConfig}
    (h : Reach (World.act crc) RequestFits (World.init cfg) w) :
    (∀ f ∈ w.immutables, CanBeWritten f.table) ∧ (∀ f ∈ unflushed w, CanBeWritten f.table) := by
  have hsmall : Filed w ∧ Small w :=
    reach_invariant (P := fun w => Filed w ∧ Small w) h
      ⟨filed_idle rfl rfl nodup_nil nofun, small_init cfg⟩
      fun hw hfit hs => ⟨filed_step hw.1 hs, small_step hw.2 hw.1 hfit hs⟩
  exact ⟨fun f hf => canBeWritten_of_fits (hsmall.2.immutables f hf),
    fun f hf => canBeWritten_of_fits (hsmall.2.unflushed f hf)⟩

/-! ## A key the WAL takes and no SSTable does -/

theorem writeLenPrefixed_ok {bytes : Bytes} (h : bytes.length ≤ u32Max) :
    writeLenPrefixed maxRecordLen bytes = .ok (leBytes 4 bytes.length ++ bytes) := by
  unfold writeLenPrefixed checkedU32Len
  rw [if_pos h]
  rfl

/-- The WAL takes every put whose record, as a whole, is within the limit. -/
theorem encodeWalFrame_put {seq : Nat} {key value : Bytes}
    (h : 17 + key.length + value.length ≤ min maxRecordLen u32Max) :
    (encodeWalFrame crc seq (.put key value) maxRecordLen).isOk = true := by
  rw [encodeWalFrame, encodeOpBody, writeLenPrefixed_ok (by omega), writeLenPrefixed_ok (by omega)]
  simp only [ok_bind, encodeRecordFrame]
  rw [if_neg (by simp only [length_append, length_leBytes]; omega)]
  rfl

/-- A put that fills the MemTable on its own is acknowledged and frozen. -/
theorem put_freezes {cfg : LsmConfig} {key : Key}
    (hfull : cfg.memtableMaxSizeBytes ≤ entrySize key (.put []))
    (hroom : 0 < cfg.maxImmutableMemtables) :
    ∃ w f, Reach (World.act crc) (fun _ _ => True) (World.init cfg) w ∧
      w.acked = [⟨1, .put key []⟩] ∧ w.immutables = [f] ∧ unflushed w = [f] ∧
      f.table.map = [⟨key, 1, .put []⟩] := by
  let w₁ : World :=
    { (World.init cfg).logRecord (.put key []) with pending := [⟨1, .put key []⟩] }
  let w₂ : World := { w₁ with durable := 1 }
  have happend : (World.init cfg).act crc (.append (.put key [])) = some w₁ := by
    rfl
  have hfsync : w₁.act crc (.fsync 1) = some w₂ := by
    rfl
  have happly : w₂.act crc (.apply 1) = some (w₂.finishApply ⟨1, .put key []⟩) := by
    simp [World.act, w₂, w₁]
  have hisFull : (w₂.applyRecord ⟨1, .put key []⟩).active.isFull = true := by
    show decide (cfg.memtableMaxSizeBytes ≤ 0 + entrySize key (.put [])) = true
    rw [Nat.zero_add]
    exact decide_eq_true hfull
  refine ⟨_, ⟨0, (w₂.applyRecord ⟨1, .put key []⟩).active⟩,
    ((Reach.refl.tail trivial happend).tail trivial hfsync).tail trivial happly, ?_⟩
  have hfreeze : ¬ w₂.cfg.maxImmutableMemtables ≤ w₂.immutables.length := Nat.not_le.mpr hroom
  rw [World.finishApply, if_pos hisFull, if_neg hfreeze]
  exact ⟨rfl, rfl, rfl, rfl⟩

/-- A MemTable that holds nothing but a version with too long a key. -/
theorem encodeTable_longKey (hm : m.map = [e]) (hlong : maxKeySize < e.key.length)
    (targetBlockSize : Nat) :
    encodeTable crc targetBlockSize m = .error (.recordTooLarge e.key.length maxKeySize) := by
  have hrange : m.range .unbounded .unbounded = [e] := by
    unfold MemTable.range
    rw [hm]
    rfl
  have hrecord : encodeRecord e = .error (.recordTooLarge e.key.length maxKeySize) := by
    unfold encodeRecord checkedLen
    rw [if_pos hlong]
    rfl
  rw [encodeTable, hrange, addRecords, addRecord, hrecord]
  rfl

/-- One byte longer than an SSTable takes. -/
def longKey : Key := List.replicate (maxKeySize + 1) 0

theorem length_longKey : longKey.length = maxKeySize + 1 := length_replicate

/-- **A put the flush thread can never write:** the WAL takes the record under its default
limit, the put is acknowledged, and its MemTable is refused on every attempt. -/
theorem long_key_never_flushed :
    (encodeWalFrame crc32c 1 (.put longKey []) defaultMaxRecordLen).isOk = true ∧
      ∃ w f, Reach (World.act crc32c) (fun _ _ => True) (World.init ⟨4096, 4, 4, 100⟩) w ∧
        w.acked = [⟨1, .put longKey []⟩] ∧ w.immutables = [f] ∧ unflushed w = [f] ∧
        (∃ e ∈ f.table.map, (encodeRecord e).isOk = false) ∧
        ∀ targetBlockSize, encodeTable crc32c targetBlockSize f.table =
          .error (.recordTooLarge 65537 65536) := by
  have hlen := length_longKey
  refine ⟨encodeWalFrame_put ?_, ?_⟩
  · rw [hlen]
    decide
  obtain ⟨w, f, hreach, hacked, him, hun, hmap⟩ :=
    @put_freezes crc32c ⟨4096, 4, 4, 100⟩ longKey
      (by rw [entrySize, hlen]; decide) (by decide)
  refine ⟨w, f, hreach, hacked, him, hun, ⟨⟨longKey, 1, .put []⟩, by rw [hmap]; simp, ?_⟩, ?_⟩
  · refine Bool.eq_false_iff.mpr fun hok => ?_
    have hfits := ((encodeRecord_isOk_iff _).mp hok).1
    rw [hlen] at hfits
    omega
  · intro targetBlockSize
    rw [encodeTable_longKey hmap (by rw [hlen]; omega)]
    rw [hlen]
    rfl

/-- A run the condition allows: a batch with a deletion in it fills its MemTable. -/
theorem short_batch_can_be_written :
    ∃ w, Reach (World.act crc32c) RequestFits (World.init ⟨64, 4, 4, 100⟩) w ∧
      w.immutables.map (·.table.map) = [[⟨[1], 1, .put [2]⟩, ⟨[3], 1, .tombstone⟩]] ∧
      (∀ f ∈ w.immutables, CanBeWritten f.table) ∧ ∀ f ∈ unflushed w, CanBeWritten f.table := by
  obtain ⟨w, hreach, hone⟩ : ∃ w, Reach (World.act crc32c) RequestFits
      (World.init ⟨64, 4, 4, 100⟩) w ∧
        w.immutables.map (·.table.map) = [[⟨[1], 1, .put [2]⟩, ⟨[3], 1, .tombstone⟩]] :=
    exists_reach_of_run [.append (.group [.put [1] [2], .delete [3]]), .fsync 1, .apply 1]
      (by decide +kernel)
  exact ⟨w, hreach, hone, frozen_tables_can_be_written hreach⟩

end RubixDb.Proof
