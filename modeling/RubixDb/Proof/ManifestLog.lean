import RubixDb.Lib.Crc32c
import RubixDb.Proof.Open

/-!
# The manifest file is a list of edits

As long as no failed write is rolled back while the handle's `len` is behind the synced
part of the file, the manifest is the frames of a list of edits, with at most one torn
frame at the end of a poisoned handle. `Logs m es fs ds` says so: `es` are the edits in
the file, `fs` those no failed append takes back, `ds` those an fsync has covered.

Every append, whichever call of it fails, either adds its edit or does not
(`logs_appendSync`); a crash cuts the list somewhere behind `ds` (`take_frames`); and
`replay` gives back the state the surviving edits describe (`replayManifest_frames`).
-/

namespace RubixDb.Proof

open Lib List

variable {crc : Bytes → UInt32}

/-! ## Edits round-trip -/

variable {n : Nat} {e : ManifestEdit} {ds es fs : List ManifestEdit} {torn : Bytes}
    {st : ManifestState} {m : Manifest}

theorem readU64_at (before after : Bytes) (hn : n ≤ u64Max) :
    readU64 (before ++ (leBytes 8 n ++ after)) before.length = n := by
  unfold readU64
  rw [drop_left, take_left' (length_leBytes 8 n)]
  refine leNat_leBytes ?_
  have : u64Max < 256 ^ 8 := by decide
  omega

theorem decodeBody_encodeBody (h : e.Wf) : decodeBody (encodeBody e) = .ok e := by
  cases e with
  | addSstable id lo hi size =>
    obtain ⟨hid, hlo, hhi, hsize⟩ := h
    have e1 : readU64 (encodeBody (.addSstable id lo hi size)) 1 = id := readU64_at [1] _ hid
    have e2 : readU64 (encodeBody (.addSstable id lo hi size)) 9 = lo := by
      have := readU64_at (1 :: leBytes 8 id) (leBytes 8 hi ++ leBytes 8 size) (hlo.trans hhi)
      simpa [encodeBody] using this
    have e3 : readU64 (encodeBody (.addSstable id lo hi size)) 17 = hi := by
      have := readU64_at (1 :: (leBytes 8 id ++ leBytes 8 lo)) (leBytes 8 size) hhi
      simpa [encodeBody] using this
    have e4 : readU64 (encodeBody (.addSstable id lo hi size)) 25 = size := by
      have := readU64_at (1 :: (leBytes 8 id ++ (leBytes 8 lo ++ leBytes 8 hi))) [] hsize
      simpa [encodeBody] using this
    have hlen : (encodeBody (.addSstable id lo hi size)).length = 33 := by simp [encodeBody]
    unfold decodeBody
    rw [e1, e2, e3, e4]
    simp [encodeBody, Nat.not_lt.mpr hlo]
  | removeSstable id =>
    have e1 : readU64 (encodeBody (.removeSstable id)) 1 = id := by
      have := readU64_at [2] [] h
      simpa [encodeBody] using this
    have hlen : (encodeBody (.removeSstable id)).length = 9 := by simp [encodeBody]
    unfold decodeBody
    rw [e1]
    simp [encodeBody]
  | setCheckpoint c seg off =>
    obtain ⟨hc, hseg, hoff⟩ := h
    have e1 : readU64 (encodeBody (.setCheckpoint c seg off)) 1 = c := readU64_at [3] _ hc
    have e2 : readU64 (encodeBody (.setCheckpoint c seg off)) 9 = seg := by
      have := readU64_at (3 :: leBytes 8 c) (leBytes 8 off) hseg
      simpa [encodeBody] using this
    have e3 : readU64 (encodeBody (.setCheckpoint c seg off)) 17 = off := by
      have := readU64_at (3 :: (leBytes 8 c ++ leBytes 8 seg)) [] hoff
      simpa [encodeBody] using this
    unfold decodeBody
    rw [e1, e2, e3]
    simp [encodeBody]

theorem encodeBody_length (e : ManifestEdit) :
    0 < (encodeBody e).length ∧ (encodeBody e).length ≤ maxEditBodyLen := by
  cases e <;> simp [encodeBody, maxEditBodyLen]

/-! ## Frames in a row -/

/-- The file that holds exactly these edits. -/
def frames (crc : Bytes → UInt32) (es : List ManifestEdit) : Bytes :=
  (es.map (encodeFrame crc)).flatten

/-- A frame cut short, or nothing. -/
def Torn (crc : Bytes → UInt32) (bs : Bytes) : Prop :=
  ∃ e : ManifestEdit, ∃ n, n < (encodeFrame crc e).length ∧ bs = (encodeFrame crc e).take n

theorem length_encodeFrame (e : ManifestEdit) :
    (encodeFrame crc e).length = 8 + (encodeBody e).length :=
  length_frame _ _

theorem torn_nil : Torn crc [] :=
  ⟨.removeSstable 0, 0, by rw [length_encodeFrame]; omega, rfl⟩

theorem frames_append (es fs : List ManifestEdit) :
    frames crc (es ++ fs) = frames crc es ++ frames crc fs := by
  simp [frames]

theorem frames_singleton (e : ManifestEdit) : frames crc [e] = encodeFrame crc e := by
  simp [frames]

theorem frames_length_mono (h : ds <+: es) : (frames crc ds).length ≤ (frames crc es).length := by
  obtain ⟨rest, rfl⟩ := h
  rw [frames_append, length_append]
  omega

/-- **Where a crash may cut.** What is left is the frames of an initial part of the
edits and at most one torn frame; edits wholly below the cut are all there. -/
theorem take_frames : ∀ {es : List ManifestEdit} {stray : Bytes} (n : Nat), Torn crc stray →
    ∃ es' torn, (frames crc es ++ stray).take n = frames crc es' ++ torn ∧ Torn crc torn ∧
      es' <+: es ∧ ∀ ds, ds <+: es → (frames crc ds).length ≤ n → ds <+: es' := by
  intro es
  induction es with
  | nil =>
    rintro stray n ⟨e, k, hk, rfl⟩
    refine ⟨[], ((encodeFrame crc e).take k).take n, rfl, ⟨e, min n k, by omega, ?_⟩,
      prefix_refl _, fun ds hds _ => hds⟩
    rw [take_take]
  | cons e es ih =>
    intro stray n hstray
    have hcons : frames crc (e :: es) ++ stray = encodeFrame crc e ++ (frames crc es ++ stray) := by
      simp [frames]
    -- the cut falls inside the first frame or behind it
    by_cases hn : n < (encodeFrame crc e).length
    · refine ⟨[], (encodeFrame crc e).take n, ?_, ⟨e, n, hn, rfl⟩, nil_prefix, ?_⟩
      · rw [hcons, take_append_of_le_length hn.le]
        rfl
      · intro ds hds hlen
        cases ds with
        | nil => exact prefix_refl _
        | cons d ds =>
          obtain ⟨rfl, _⟩ := cons_prefix_cons.mp hds
          have : (encodeFrame crc d).length ≤ (frames crc (d :: ds)).length := by simp [frames]
          omega
    · obtain ⟨es', torn, htake, htorn, hpre, hds⟩ := ih (n - (encodeFrame crc e).length) hstray
      refine ⟨e :: es', torn, ?_, htorn, cons_prefix_cons.mpr ⟨rfl, hpre⟩, ?_⟩
      · rw [hcons, take_append, take_of_length_le (by omega), htake]
        simp [frames]
      · intro ds hds' hlen
        cases ds with
        | nil => exact nil_prefix
        | cons d ds =>
          obtain ⟨rfl, hrest⟩ := cons_prefix_cons.mp hds'
          refine cons_prefix_cons.mpr ⟨rfl, hds ds hrest ?_⟩
          have : (frames crc (d :: ds)).length =
              (encodeFrame crc d).length + (frames crc ds).length := by simp [frames]
          omega

/-! ## Replay -/

theorem frameHead_encodeFrame (e : ManifestEdit) (rest : Bytes) :
    frameHead crc maxEditBodyLen (encodeFrame crc e ++ rest) = .intact (encodeBody e) rest := by
  obtain ⟨hpos, hmax⟩ := encodeBody_length e
  exact frameHead_frame hpos hmax (by have : maxEditBodyLen = 64 := rfl; omega) rest

/-- The loop reads the frames off one by one and stops at the torn one. -/
theorem replayLoop_frames (htorn : Torn crc torn) {es : List ManifestEdit} {fuel pos : Nat}
    {st st' : ManifestState} (hwf : ∀ e ∈ es, e.Wf) (hst : st.applyAll es = .ok st')
    (hfuel : (frames crc es ++ torn).length < fuel) :
    replayLoop crc fuel pos (frames crc es ++ torn) st =
      .ok ⟨st', pos + (frames crc es).length, decide (torn ≠ [])⟩ := by
  induction es generalizing fuel pos st st' with
  | nil =>
    cases hst
    obtain ⟨fuel, rfl⟩ : ∃ f, fuel = f + 1 := ⟨fuel - 1, by omega⟩
    obtain ⟨e, n, hn, rfl⟩ := htorn
    obtain ⟨hpos, hmax⟩ := encodeBody_length e
    -- a torn frame ends the replay, and shows unless it is empty
    have hhead : frameHead crc maxEditBodyLen ((encodeFrame crc e).take n) = _ :=
      frameHead_torn hpos hmax (by have : maxEditBodyLen = 64 := rfl; omega) hn
    have hnil : ((encodeFrame crc e).take n = []) ↔ n = 0 := by
      rw [← length_eq_zero_iff, length_take]
      omega
    show replayLoop crc (fuel + 1) pos ((encodeFrame crc e).take n) st = _
    rw [replayLoop, hhead]
    by_cases h0 : n = 0
    · simp [h0, frames]
    · by_cases h8 : n < 8 <;> simp [h0, h8, frames, hnil]
  | cons e es ih =>
    obtain ⟨st1, h1, hst⟩ := applyAll_cons.mp hst
    have hcons : frames crc (e :: es) ++ torn = encodeFrame crc e ++ (frames crc es ++ torn) := by
      simp [frames]
    have hlen : (encodeFrame crc e).length = _ := length_encodeFrame e
    rw [hcons] at hfuel ⊢
    rw [length_append] at hfuel
    obtain ⟨fuel, rfl⟩ : ∃ f, fuel = f + 1 := ⟨fuel - 1, by omega⟩
    rw [replayLoop, frameHead_encodeFrame]
    simp only [decodeBody_encodeBody (hwf e (by simp)), h1]
    rw [ih (fun x hx => hwf x (mem_cons_of_mem _ hx)) hst (by omega)]
    have : (frames crc (e :: es)).length = (encodeFrame crc e).length + (frames crc es).length := by
      simp [frames]
    congr 2
    omega

theorem replayManifest_frames (hwf : ∀ e ∈ es, e.Wf) (hst : ManifestState.applyAll {} es = .ok st)
    (htorn : Torn crc torn) :
    replayManifest crc (frames crc es ++ torn) =
      .ok ⟨st, (frames crc es).length, decide (torn ≠ [])⟩ := by
  have key : replayLoop crc _ 0 (frames crc es ++ torn) {} = _ :=
    replayLoop_frames htorn hwf hst (Nat.lt_succ_self _)
  simpa [replayManifest] using key

/-! ## What the handle and the file agree on -/

theorem applyAll_append : ∀ {st st' : ManifestState},
    st.applyAll (es ++ fs) = .ok st' ↔
      ∃ st1, st.applyAll es = .ok st1 ∧ st1.applyAll fs = .ok st' := by
  induction es with
  | nil =>
    intro st st'
    constructor
    · intro h; exact ⟨st, rfl, h⟩
    · rintro ⟨st1, h1, h⟩; exact Except.ok.inj h1 ▸ h
  | cons e es ih =>
    intro st st'
    rw [cons_append, applyAll_cons]
    constructor
    · rintro ⟨st1, h1, h⟩
      obtain ⟨st2, h2, h⟩ := ih.mp h
      exact ⟨st2, applyAll_cons.mpr ⟨st1, h1, h2⟩, h⟩
    · rintro ⟨st2, h2, h⟩
      obtain ⟨st1, h1, h2⟩ := applyAll_cons.mp h2
      exact ⟨st1, h1, ih.mpr ⟨st2, h2, h⟩⟩

/-- An initial part of edits that apply applies. -/
theorem applyAll_initial {st' : ManifestState} (h : st.applyAll es = .ok st')
    (hds : ds <+: es) : ∃ st1, st.applyAll ds = .ok st1 := by
  obtain ⟨rest, rfl⟩ := hds
  obtain ⟨st1, h1, _⟩ := applyAll_append.mp h
  exact ⟨st1, h1⟩

/-- Replaying the first `n` bytes applies exactly the edits `ds` that are whole in them:
`validLength` is their end, and `truncated` tells whether bytes are left behind it. -/
def ReplaysCut (crc : Bytes → UInt32) (es : List ManifestEdit) (n : Nat) : Prop :=
  ∃ ds st, ds <+: es ∧ (∀ fs, fs <+: es → (fs <+: ds ↔ (frames crc fs).length ≤ n)) ∧
    ManifestState.applyAll {} ds = .ok st ∧ replayManifest crc ((frames crc es).take n) =
      .ok ⟨st, (frames crc ds).length, (frames crc ds).length < min n (frames crc es).length⟩

/-- **A manifest can be cut at any byte.** -/
theorem replayManifest_cut (n : Nat) (hwf : ∀ e ∈ es, e.Wf)
    (hst : ManifestState.applyAll {} es = .ok st) : ReplaysCut crc es n := by
  obtain ⟨ds, torn, htake, htorn, hds, hwhole⟩ := @take_frames crc es [] n torn_nil
  obtain ⟨st', hst'⟩ := applyAll_initial hst hds
  rw [append_nil] at htake
  -- the cut file is the whole edits and the torn bytes, so its length says whether any are torn
  have hlen := congrArg List.length htake
  rw [length_take, length_append] at hlen
  refine ⟨ds, st', hds, fun fs hfs => ⟨fun h => ?_, hwhole fs hfs⟩, hst', ?_⟩
  · have : (frames crc fs).length ≤ _ := frames_length_mono h
    omega
  · rw [htake, replayManifest_frames (fun e he => hwf e (hds.subset he)) hst' htorn, hlen]
    simp [length_pos_iff]

/-- Two flushes and a compaction ... -/
def flushedEdits : List ManifestEdit :=
  [.addSstable 1 1 4 300, .setCheckpoint 4 1 24, .addSstable 2 5 9 200, .setCheckpoint 9 2 24,
    .addSstable 3 1 9 400, .removeSstable 1, .removeSstable 2]

/-- ... of which the frame of the last but one is torn. -/
theorem flushedEdits_cut : ReplaysCut crc32c flushedEdits 200 ∧
    (frames crc32c (flushedEdits.take 5)).length ≤ 200 ∧
    200 < (frames crc32c (flushedEdits.take 6)).length :=
  ⟨replayManifest_cut 200 (by simp [flushedEdits, ManifestEdit.Wf, u64Max]) rfl,
    by decide +kernel, by decide +kernel⟩

/--
The manifest holds the edits `es`. A failed append never takes back `fs`, and an fsync
has covered `ds`.

`len` is where the handle would roll back to: the end of `fs`, or, once a sync has failed
and a later append went through, a place inside the synced part of the file.
-/
structure Logs (crc : Bytes → UInt32) (m : Manifest) (es fs ds : List ManifestEdit) : Prop where
  file : ∃ stray, m.file = frames crc es ++ stray ∧ Torn crc stray ∧
    (m.poisoned = false → stray = [])
  wf : ∀ e ∈ es, e.Wf
  applies : ∃ st, ManifestState.applyAll {} es = .ok st
  floor : ds <+: fs ∧ fs <+: es
  synced : m.synced = (frames crc ds).length
  len : m.poisoned = false → m.len < m.synced ∨ m.len = (frames crc fs).length

theorem logs_init : Logs crc {} [] [] [] where
  file := ⟨[], rfl, torn_nil, fun _ => rfl⟩
  wf := by simp
  applies := ⟨{}, rfl⟩
  floor := ⟨prefix_refl _, prefix_refl _⟩
  synced := rfl
  len := fun _ => .inr rfl

/-- The failing append cuts the file back to `len`. -/
def RollsBack : AppendFault → Bool
  | .write _ .setLen => false
  | .write _ _ => true
  | _ => false

/-- The append does not cut the file back into the part that was synced. -/
def NoStaleRollback (m : Manifest) (fault : AppendFault) : Prop :=
  RollsBack fault = true → m.poisoned = true ∨ m.synced ≤ m.len

instance (m : Manifest) (fault : AppendFault) : Decidable (NoStaleRollback m fault) :=
  inferInstanceAs (Decidable (_ → _))

theorem wf_concat (h : ∀ x ∈ es, x.Wf) (he : e.Wf) : ∀ x ∈ es ++ [e], x.Wf := by
  intro x hx
  rcases mem_append.mp hx with hx | hx
  · exact h x hx
  · exact mem_singleton.mp hx ▸ he

section Append

variable {m' : Manifest}

section

variable (h : Logs crc m es fs ds)
include h

/-- The file of a handle that is not poisoned. -/
theorem Logs.file_eq (hp : m.poisoned = false) : m.file = frames crc es := by
  obtain ⟨stray, hfile, _, hstray⟩ := h.file
  rw [hfile, hstray hp, append_nil]

/-- An edit was written out in full. -/
theorem Logs.written (hp : m.poisoned = false) :
    m.file ++ encodeFrame crc e = frames crc (es ++ [e]) := by
  rw [h.file_eq hp, frames_append, frames_singleton]

/-- Cut the file back to the floor. -/
theorem Logs.cut {es' ds' : List ManifestEdit} (hes' : es' <+: es) (hds : ds' <+: es')
    (hfile : m'.file = frames crc es') (hlen : m'.len = (frames crc es').length)
    (hsync : m'.synced = (frames crc ds').length) : Logs crc m' es' es' ds' where
  file := ⟨[], by simpa using hfile, torn_nil, fun _ => rfl⟩
  wf := fun e he => h.wf e (hes'.subset he)
  applies := by
    obtain ⟨st, hst⟩ := h.applies
    exact applyAll_initial hst hes'
  floor := ⟨hds, prefix_refl _⟩
  synced := hsync
  len := fun _ => .inr hlen

/-- An append that went through. -/
theorem Logs.appended (he : e.Wf) (hp : m.poisoned = false)
    (happ : ∃ st, ManifestState.applyAll {} (es ++ [e]) = .ok st) :
    Logs crc { m with
        file := m.file ++ encodeFrame crc e
        synced := (m.file ++ encodeFrame crc e).length
        len := m.len + (encodeFrame crc e).length } (es ++ [e]) (es ++ [e]) (es ++ [e]) where
  file := ⟨[], by simpa using h.written hp, torn_nil, fun _ => rfl⟩
  wf := wf_concat h.wf he
  applies := happ
  floor := ⟨prefix_refl _, prefix_refl _⟩
  synced := congrArg List.length (h.written hp)
  len := by
    intro _
    show m.len + _ < (m.file ++ _).length ∨ m.len + _ = _
    have hfile := congrArg List.length (h.file_eq hp)
    have hmono : (frames crc fs).length ≤ (frames crc es).length := frames_length_mono h.floor.2
    have hds : (frames crc ds).length ≤ (frames crc fs).length := frames_length_mono h.floor.1
    have hsync := h.synced
    rw [length_append, frames_append, length_append, frames_singleton]
    -- an edit that failed to sync stands between the handle's `len` and the end of the
    -- file: from here on `len` is behind
    rcases h.len hp with hlt | hll <;> omega

/-- An append of which nothing fails. -/
theorem Logs.appendSync_none (he : e.Wf) (hp : m.poisoned = false)
    (happ : ∃ st, ManifestState.applyAll {} (es ++ [e]) = .ok st) :
    ∃ m', m.appendSync crc e .none = (m', true) ∧
      Logs crc m' (es ++ [e]) (es ++ [e]) (es ++ [e]) ∧ m'.poisoned = false := by
  refine ⟨_, ?_, h.appended he hp happ, hp⟩
  simp [Manifest.appendSync, hp]

/-- A failed write whose rollback failed at once: the handle is poisoned. -/
theorem Logs.stray (n : Nat) (he : e.Wf) (hp : m.poisoned = false)
    (happ : ∃ st, ManifestState.applyAll {} (es ++ [e]) = .ok st) :
    ∃ es', Logs crc { m with
        file := m.file ++ (encodeFrame crc e).take n
        poisoned := true } es' fs ds ∧ (es' = es ∨ es' = es ++ [e]) := by
  by_cases hn : n < (encodeFrame crc e).length
  · refine ⟨es, ⟨⟨(encodeFrame crc e).take n, ?_, ⟨e, n, hn, rfl⟩, by simp⟩, h.wf, h.applies,
      h.floor, h.synced, by simp⟩, .inl rfl⟩
    rw [h.file_eq hp]
  · refine ⟨es ++ [e], ⟨⟨[], ?_, torn_nil, by simp⟩, wf_concat h.wf he, happ,
      ⟨h.floor.1, h.floor.2.trans (prefix_append _ _)⟩, h.synced, by simp⟩, .inr rfl⟩
    rw [take_of_length_le (by omega), h.written hp, append_nil]

/-- Where a rollback that is not stale cuts. -/
theorem Logs.rolledBack {more : Bytes} (hp : m.poisoned = false) (hlen : m.synced ≤ m.len) :
    m.len = (frames crc fs).length ∧ (m.file ++ more).take m.len = frames crc fs ∧
      m.len ≤ (m.file ++ more).length ∧ min m.synced m.len = (frames crc ds).length := by
  have hll : m.len = (frames crc fs).length := (h.len hp).resolve_left (by omega)
  have hmono : (frames crc fs).length ≤ (frames crc es).length := frames_length_mono h.floor.2
  have hsync := h.synced
  refine ⟨hll, ?_, ?_, by omega⟩
  · obtain ⟨rest, hrest⟩ := h.floor.2
    rw [h.file_eq hp, hll, ← hrest, frames_append, append_assoc, take_left]
  · rw [h.file_eq hp, length_append]
    omega

/--
**One append, whatever fails in it.** The edit is added or it is not; nothing below the
floor is taken back; and an append that returns `Ok` leaves every edit synced.
-/
theorem logs_appendSync {fault : AppendFault} {ok : Bool} (he : e.Wf)
    (happ : ∃ st, ManifestState.applyAll {} (es ++ [e]) = .ok st)
    (hroll : NoStaleRollback m fault) (hr : m.appendSync crc e fault = (m', ok)) :
    ∃ es' fs' ds', Logs crc m' es' fs' ds' ∧ (es' <+: es ∨ es' = es ++ [e]) ∧ fs <+: fs' ∧
      ds <+: ds' ∧ (ok = true → es' = es ++ [e] ∧ fs' = es ++ [e] ∧ ds' = es ++ [e]) := by
  unfold Manifest.appendSync at hr
  by_cases hp : m.poisoned = true
  · rw [if_pos hp] at hr
    obtain ⟨rfl, rfl⟩ := Prod.mk.inj hr
    exact ⟨es, fs, ds, h, .inl (prefix_refl _), prefix_refl _, prefix_refl _,
      by simp⟩
  rw [if_neg hp] at hr
  have hp : m.poisoned = false := by simpa using hp
  cases fault with
  | none =>
    obtain ⟨rfl, rfl⟩ := Prod.mk.inj hr
    have hes := h.floor.2.trans (prefix_append es [e])
    exact ⟨_, _, _, h.appended he hp happ, .inr rfl, hes, h.floor.1.trans hes,
      fun _ => ⟨rfl, rfl, rfl⟩⟩
  | sync =>
    obtain ⟨rfl, rfl⟩ := Prod.mk.inj hr
    -- the frame is in the file, but `len` does not count it
    refine ⟨es ++ [e], fs, ds, ⟨?_, wf_concat h.wf he, happ,
      ⟨h.floor.1, h.floor.2.trans (prefix_append _ _)⟩, h.synced, h.len⟩, .inr rfl,
      prefix_refl _, prefix_refl _, by simp⟩
    exact ⟨[], by simpa using h.written hp, torn_nil, fun _ => rfl⟩
  | write n rb =>
    obtain ⟨rfl, rfl⟩ := Prod.mk.inj hr
    have hcut (hrb : RollsBack (.write n rb) = true) :
        m.len = (frames crc fs).length ∧
        (m.file ++ (encodeFrame crc e).take n).take m.len = frames crc fs ∧
        m.len ≤ (m.file ++ (encodeFrame crc e).take n).length ∧
        min m.synced m.len = (frames crc ds).length :=
      h.rolledBack hp ((hroll hrb).resolve_left (by simp [hp]))
    cases rb with
    | none =>
      obtain ⟨hll, htake, hle, _⟩ := hcut rfl
      refine ⟨fs, fs, fs, h.cut h.floor.2 (prefix_refl _) htake hll ?_, .inl h.floor.2,
        prefix_refl _, h.floor.1, by simp⟩
      exact (Nat.min_eq_left hle).trans hll
    | setLen =>
      -- the rollback failed as well, so the torn frame stays
      obtain ⟨es', hlogs, hes'⟩ := h.stray n he hp happ
      refine ⟨es', fs, ds, hlogs, ?_, prefix_refl _, prefix_refl _, by simp⟩
      rcases hes' with rfl | rfl
      · exact .inl (prefix_refl _)
      · exact .inr rfl
    | seek | sync =>
      obtain ⟨hll, htake, _, hsync⟩ := hcut rfl
      exact ⟨fs, fs, ds, h.cut h.floor.2 h.floor.1 htake hll hsync, .inl h.floor.2,
        prefix_refl _, prefix_refl _, by simp⟩

end

end Append

/-- The synced part is part of the file. -/
theorem Logs.synced_le (h : Logs crc m es fs ds) : m.synced ≤ m.file.length := by
  obtain ⟨stray, hfile, _⟩ := h.file
  have hmono : (frames crc ds).length ≤ (frames crc es).length :=
    frames_length_mono (h.floor.1.trans h.floor.2)
  rw [h.synced, hfile, length_append]
  omega

/-- **A stop and the replay after it.** Whatever part of the file behind the synced bytes
survives, opening it gives the state of an initial part of the edits, no shorter than
what was synced. -/
theorem logs_openFile (h : Logs crc m es fs ds) (hn : m.synced ≤ n) :
    ∃ es' m' r, Manifest.openFile crc (m.file.take n) m.synced = .ok (m', r) ∧
      ManifestState.applyAll {} es' = .ok r.state ∧ es' <+: es ∧ ds <+: es' ∧
      Logs crc m' es' es' ds ∧ m'.poisoned = false := by
  obtain ⟨stray, hfile, hstray, _⟩ := h.file
  obtain ⟨es', torn, htake, htorn, hes', hds⟩ := take_frames n hstray
  obtain ⟨st0, hst0⟩ := h.applies
  obtain ⟨st, hst⟩ := applyAll_initial hst0 hes'
  have hds := hds ds (h.floor.1.trans h.floor.2) (h.synced ▸ hn)
  have hmono : (frames crc ds).length ≤ (frames crc es').length := frames_length_mono hds
  have hsync := h.synced
  have hrep := replayManifest_frames (fun e he => h.wf e (hes'.subset he)) hst htorn
  refine ⟨es', ⟨frames crc es', min m.synced (frames crc es').length, (frames crc es').length,
    false⟩, ⟨st, (frames crc es').length, decide (torn ≠ [])⟩, ?_, hst, hes', hds, ?_, rfl⟩
  · unfold Manifest.openFile
    rw [hfile, htake, hrep]
    cases torn with
    | nil | cons b bs => simp
  · exact h.cut hes' hds rfl rfl ((Nat.min_eq_left (by omega)).trans hsync)

/-- Appends that do not fail. -/
theorem logs_appendAll {as : List ManifestEdit} {m : Manifest} {es ds : List ManifestEdit}
    (h : Logs crc m es es ds) (hp : m.poisoned = false) (hwf : ∀ e ∈ as, e.Wf)
    (happ : ∃ st, ManifestState.applyAll {} (es ++ as) = .ok st) :
    ∃ ds', Logs crc (appendAll crc m as) (es ++ as) (es ++ as) ds' ∧ ds <+: ds' ∧
      (ds = es → ds' = es ++ as) := by
  induction as generalizing m es ds with
  | nil =>
    exact ⟨ds, by simpa [appendAll] using h, prefix_refl _, by simp⟩
  | cons a as ih =>
    have hsplit : es ++ a :: as = (es ++ [a]) ++ as := by simp
    rw [hsplit] at happ ⊢
    obtain ⟨st, hst⟩ := happ
    have happ1 := applyAll_initial hst (prefix_append _ _)
    obtain ⟨m', hone, hm', hp'⟩ := h.appendSync_none (hwf a (by simp)) hp happ1
    obtain ⟨ds', h', hds', hall⟩ :=
      ih hm' hp' (fun e he => hwf e (mem_cons_of_mem _ he)) ⟨st, hst⟩
    refine ⟨ds', ?_, (h.floor.1.trans (prefix_append _ _)).trans hds', fun _ => hall rfl⟩
    show Logs crc (appendAll crc (m.appendSync crc a .none).1 as) _ _ _
    rwa [hone]

end RubixDb.Proof
