import RubixDb.Lib.Crc32c
import RubixDb.Lib.Run
import RubixDb.Proof.ManifestLog

/-!
# Appends that fail

A manifest handle between two opens: a sequence of `append_sync` calls, in each of which
the write, the rollback or the final sync may fail. `AppendLog` carries beside the handle
the edits it has returned `Ok` for.

What has to stay in step is the handle's `len` and the frames in the file. A failed write
puts the file back to `len`, so it keeps them together; an `Ok` moves both; a poisoned
handle does nothing any more. The one call that moves only the file is an append whose
write went through and whose `sync_all` failed: its frame stays, `len` does not move, and
the handle goes on. From there a later failed write cuts the file at a place that need
not be the end of a frame, below edits that were returned `Ok`.
-/

namespace RubixDb.Proof

open Lib List

variable {crc : Bytes → UInt32}

/-! ## What replay accepts -/

theorem leBytes_readU64 {body : Bytes} {pos : Nat} (h : pos + 8 ≤ body.length) :
    leBytes 8 (readU64 body pos) = (body.drop pos).take 8 := by
  have := leBytes_leNat ((body.drop pos).take 8)
  rwa [length_take, length_drop, Nat.min_eq_left (by omega)] at this

theorem field_append_drop (bs : Bytes) (n : Nat) :
    (bs.drop n).take 8 ++ bs.drop (n + 8) = bs.drop n := by
  rw [← drop_drop, take_append_drop]

theorem readU64_le (body : Bytes) (pos : Nat) : readU64 body pos ≤ u64Max := by
  have h8 : ((body.drop pos).take 8).length ≤ 8 := by
    rw [length_take]
    omega
  have hpow : 256 ^ ((body.drop pos).take 8).length ≤ 256 ^ 8 := Nat.pow_le_pow_right (by decide) h8
  have hmax : u64Max + 1 = 256 ^ 8 := by decide
  have := leNat_lt ((body.drop pos).take 8)
  unfold readU64
  omega

/-- **A decoded body is the encoding of its edit.** -/
theorem encodeBody_decodeBody {body : Bytes} {e : ManifestEdit} (h : decodeBody body = .ok e) :
    encodeBody e = body ∧ e.Wf := by
  unfold decodeBody at h
  cases body with
  | nil => cases h
  | cons tag rest =>
    dsimp only at h
    have hdrop (n : Nat) : (tag :: rest).drop (n + 1) = rest.drop n := rfl
    -- one branch a tag
    split at h
    · rename_i htag
      split at h; · cases h
      split at h; · cases h
      rename_i hlen hmin
      cases h
      refine ⟨?_, readU64_le _ _, Nat.le_of_not_lt hmin, readU64_le _ _, readU64_le _ _⟩
      have hlen : rest.length = 32 := by simpa using hlen
      rw [encodeBody, leBytes_readU64 (by omega), leBytes_readU64 (by omega),
        leBytes_readU64 (by omega), leBytes_readU64 (by omega), hdrop, hdrop, hdrop, hdrop, htag]
      have h24 : (rest.drop 24).take 8 = rest.drop 24 :=
        take_of_length_le (by rw [length_drop]; omega)
      rw [h24, field_append_drop rest 16, field_append_drop rest 8, field_append_drop rest 0]
      rfl
    split at h
    · rename_i htag
      split at h; · cases h
      rename_i hlen
      cases h
      refine ⟨?_, readU64_le _ _⟩
      have hlen : rest.length = 8 := by simpa using hlen
      rw [encodeBody, leBytes_readU64 (by omega), hdrop, htag,
        take_of_length_le (by rw [length_drop]; omega)]
      rfl
    split at h
    · rename_i htag
      split at h; · cases h
      rename_i hlen
      cases h
      refine ⟨?_, readU64_le _ _, readU64_le _ _, readU64_le _ _⟩
      have hlen : rest.length = 24 := by simpa using hlen
      rw [encodeBody, leBytes_readU64 (by omega), leBytes_readU64 (by omega),
        leBytes_readU64 (by omega), hdrop, hdrop, hdrop, htag]
      have h16 : (rest.drop 16).take 8 = rest.drop 16 :=
        take_of_length_le (by rw [length_drop]; omega)
      rw [h16, field_append_drop rest 8, field_append_drop rest 0]
      rfl
    · cases h

/-- **A file that replays is frames of edits that apply,** and bytes behind them that are
cut off at open. -/
theorem replayLoop_sound {fuel pos : Nat} {bs : Bytes} {st : ManifestState}
    {r : ManifestReplayResult} (hfuel : bs.length < fuel)
    (h : replayLoop crc fuel pos bs st = .ok r) :
    ∃ es rest, bs = frames crc es ++ rest ∧ (∀ e ∈ es, e.Wf) ∧ st.applyAll es = .ok r.state ∧
      r.validLength = pos + (frames crc es).length ∧ (r.truncated = false → rest = []) := by
  induction fuel generalizing pos bs st r with
  | zero => omega
  | succ fuel ih =>
    -- every way to stop leaves no edit behind
    have hstop {t : Bool} (h : (Except.ok ⟨st, pos, t⟩ : Except ManifestError _) = .ok r)
        (hend : t = false → bs = []) :
        ∃ es rest, bs = frames crc es ++ rest ∧ (∀ e ∈ es, e.Wf) ∧
          st.applyAll es = .ok r.state ∧ r.validLength = pos + (frames crc es).length ∧
          (r.truncated = false → rest = []) := by
      cases h
      exact ⟨[], bs, rfl, by simp, rfl, rfl, hend⟩
    rw [replayLoop] at h
    cases hhead : frameHead crc maxEditBodyLen bs with
    | done =>
      rw [hhead] at h
      exact hstop h fun _ => eq_nil_of_frameHead_done hhead
    | shortHeader | zeroTail | shortBody len => rw [hhead] at h; exact hstop h (by simp)
    | oversized len =>
      rw [hhead] at h
      dsimp only at h
      split_ifs at h
      exact hstop h (by simp)
    | badCrc len =>
      rw [hhead] at h
      dsimp only at h
      split at h; · exact hstop h (by simp)
      split_ifs at h
      exact hstop h (by simp)
    | intact body after =>
      rw [hhead] at h
      dsimp only at h
      obtain rfl := frameHead_intact hhead
      cases hdec : decodeBody body with
      | error e =>
        rw [hdec] at h
        dsimp only at h
        split_ifs at h
        exact hstop h (by simp)
      | ok e =>
        obtain ⟨hbody, hwf⟩ := encodeBody_decodeBody hdec
        rw [hdec] at h
        dsimp only at h
        cases happ : st.apply e with
        | error err => rw [happ] at h; cases h
        | ok st1 =>
          rw [happ] at h
          rw [length_append, length_frame] at hfuel
          obtain ⟨es, rest, rfl, hes, hst, hlen, hrest⟩ := ih (by omega) h
          have hframe : frame crc body = encodeFrame crc e := by rw [encodeFrame, hbody]
          refine ⟨e :: es, rest, ?_, ?_, applyAll_cons.mpr ⟨st1, happ, hst⟩, ?_, hrest⟩
          · rw [hframe]
            simp [frames]
          · intro x hx
            rcases mem_cons.mp hx with rfl | hx
            · exact hwf
            · exact hes x hx
          · have : (frames crc (e :: es)).length =
                (encodeFrame crc e).length + (frames crc es).length := by simp [frames]
            rw [this, length_encodeFrame, hbody]
            omega

/-! ## Sequences of appends -/

/-- A handle, and the edits the file held when it was opened followed by those it has
returned `Ok` for since. -/
structure AppendLog where
  manifest : Manifest
  oks : List ManifestEdit
deriving DecidableEq, Repr

/-- One call of `append_sync`. -/
def appendCall (crc : Bytes → UInt32) (s : AppendLog) (a : ManifestEdit × AppendFault) :
    Option AppendLog :=
  let (m, ok) := s.manifest.appendSync crc a.1 a.2
  some ⟨m, if ok then s.oks ++ [a.1] else s.oks⟩

instance (e : ManifestEdit) : Decidable e.Wf :=
  match e with
  | .addSstable .. => inferInstanceAs (Decidable (_ ∧ _))
  | .removeSstable _ => inferInstanceAs (Decidable (_ ≤ _))
  | .setCheckpoint .. => inferInstanceAs (Decidable (_ ∧ _))

/-- The edit is one that `replay` would accept behind what the file holds now. `append_sync`
does not look: its callers only append such edits. -/
def Fits (crc : Bytes → UInt32) (m : Manifest) (e : ManifestEdit) : Prop :=
  e.Wf ∧ (replayManifest crc m.file).toOption.all (fun r => (r.state.apply e).isOk) = true

instance (m : Manifest) (e : ManifestEdit) : Decidable (Fits crc m e) :=
  inferInstanceAs (Decidable (_ ∧ _))

/-- The call leaves its whole frame in the file: nothing failed after the write, or the
write failed with every byte out and could not be undone. -/
def LeavesFrame (crc : Bytes → UInt32) (e : ManifestEdit) : AppendFault → Prop
  | .none => True
  | .sync => True
  | .write n .setLen => (encodeFrame crc e).length ≤ n
  | .write _ _ => False

instance (e : ManifestEdit) : (fault : AppendFault) → Decidable (LeavesFrame crc e fault)
  | .none => .isTrue trivial
  | .sync => .isTrue trivial
  | .write _ .setLen => inferInstanceAs (Decidable (_ ≤ _))
  | .write _ .none => .isFalse id
  | .write _ .seek => .isFalse id
  | .write _ .sync => .isFalse id

/-- Every edit that reaches the file fits it. Any call may fail. -/
def FittingCall (crc : Bytes → UInt32) (s : AppendLog) (a : ManifestEdit × AppendFault) : Prop :=
  s.manifest.poisoned = false → LeavesFrame crc a.1 a.2 → Fits crc s.manifest a.1

instance (s : AppendLog) (a : ManifestEdit × AppendFault) : Decidable (FittingCall crc s a) :=
  inferInstanceAs (Decidable (_ → _ → _))

/-- Besides, no `sync_all` fails behind a write that went through. -/
def SyncedCall (crc : Bytes → UInt32) (s : AppendLog) (a : ManifestEdit × AppendFault) : Prop :=
  FittingCall crc s a ∧ (s.manifest.poisoned = false → a.2 ≠ .sync)

instance (s : AppendLog) (a : ManifestEdit × AppendFault) : Decidable (SyncedCall crc s a) :=
  inferInstanceAs (Decidable (_ ∧ _))

/-- The first `n` bytes are frames of edits, and no longer part of the file is. -/
def LongestFramePrefix (crc : Bytes → UInt32) (file : Bytes) (n : Nat) : Prop :=
  (∃ es, (∀ e ∈ es, e.Wf) ∧ frames crc es <+: file ∧ n = (frames crc es).length) ∧
    ∀ es, (∀ e ∈ es, e.Wf) → frames crc es <+: file → (frames crc es).length ≤ n

/-- The file replays, to the state of a list of edits that has every accepted one in
order, and `len` is where the frames end. -/
def Replays (crc : Bytes → UInt32) (s : AppendLog) : Prop :=
  ∃ r es, replayManifest crc s.manifest.file = .ok r ∧
    s.manifest.file.take r.validLength = frames crc es ∧
    ManifestState.applyAll {} es = .ok r.state ∧ s.oks.Sublist es ∧
    (s.manifest.poisoned = false → LongestFramePrefix crc s.manifest.file s.manifest.len)

/-- The file holds the edits `es` and, if the handle is poisoned, maybe a torn frame; a
handle that is not poisoned knows where they end. -/
structure InStep (crc : Bytes → UInt32) (m : Manifest) (es : List ManifestEdit) : Prop where
  file : ∃ stray, m.file = frames crc es ++ stray ∧ Torn crc stray ∧
    (m.poisoned = false → stray = [])
  len : m.poisoned = false → m.len = (frames crc es).length
  wf : ∀ e ∈ es, e.Wf
  applies : ∃ st, ManifestState.applyAll {} es = .ok st

section Run

variable {m m' : Manifest} {es : List ManifestEdit} {e : ManifestEdit}

theorem InStep.file_eq (h : InStep crc m es) (hp : m.poisoned = false) :
    m.file = frames crc es := by
  obtain ⟨stray, hfile, _, hstray⟩ := h.file
  rw [hfile, hstray hp, append_nil]

/-- Opening a file, whatever its bytes, puts handle and file in step. -/
theorem inStep_openFile {file : Bytes} {synced : Nat} {r : ManifestReplayResult}
    (h : Manifest.openFile crc file synced = .ok (m, r)) :
    ∃ es, InStep crc m es ∧ m.file = frames crc es ∧
      ManifestState.applyAll {} es = .ok r.state := by
  unfold Manifest.openFile at h
  cases hrep : replayManifest crc file with
  | error e => rw [hrep] at h; cases h
  | ok r' =>
    rw [hrep] at h
    obtain ⟨rfl, rfl⟩ := Prod.mk.inj (Except.ok.inj h)
    obtain ⟨es, rest, hfile, hwf, hst, hlen, hrest⟩ :=
      replayLoop_sound (Nat.lt_succ_self _)
        (show replayLoop crc (file.length + 1) 0 file {} = _ from hrep)
    rw [Nat.zero_add] at hlen
    -- a torn tail is cut, and a file without one is all frames
    have hcut : (if r'.truncated then file.take r'.validLength else file) = frames crc es := by
      by_cases ht : r'.truncated = true
      · rw [if_pos ht, hfile, hlen, take_left]
      · rw [if_neg ht, hfile, hrest (by simpa using ht), append_nil]
    exact ⟨es, ⟨⟨[], by simpa using hcut, torn_nil, fun _ => rfl⟩, fun _ => hlen, hwf, _, hst⟩,
      hcut, hst⟩

/-- An edit that fits applies behind the edits of the file. -/
theorem InStep.applies_concat (h : InStep crc m es) (hfit : Fits crc m e) :
    ∃ st, ManifestState.applyAll {} (es ++ [e]) = .ok st := by
  obtain ⟨stray, hfile, htorn, _⟩ := h.file
  obtain ⟨st, hst⟩ := h.applies
  have hall := hfit.2
  rw [hfile, replayManifest_frames h.wf hst htorn] at hall
  cases happ : st.apply e with
  | error err =>
    simp only [Except.toOption, Option.all_some] at hall
    rw [happ] at hall
    cases hall
  | ok st' => exact ⟨st', applyAll_append.mpr ⟨st, hst, applyAll_cons.mpr ⟨st', happ, rfl⟩⟩⟩

/-- **One append.** Handle and file stay in step, and an edit returned `Ok` is behind all
the others. -/
theorem inStep_appendSync {fault : AppendFault} {ok : Bool} (h : InStep crc m es)
    (hfit : m.poisoned = false → LeavesFrame crc e fault → Fits crc m e)
    (hsync : m.poisoned = false → fault ≠ .sync) (hr : m.appendSync crc e fault = (m', ok)) :
    ∃ es', InStep crc m' es' ∧ es <+: es' ∧ (ok = true → es' = es ++ [e]) := by
  unfold Manifest.appendSync at hr
  by_cases hp : m.poisoned = true
  · rw [if_pos hp] at hr
    obtain ⟨rfl, rfl⟩ := Prod.mk.inj hr
    exact ⟨es, h, prefix_refl _, by simp⟩
  rw [if_neg hp] at hr
  have hp : m.poisoned = false := by simpa using hp
  have hfile := h.file_eq hp
  have hlen := h.len hp
  have hwritten : m.file ++ encodeFrame crc e = frames crc (es ++ [e]) := by
    rw [hfile, frames_append, frames_singleton]
  cases fault with
  | sync => exact absurd rfl (hsync hp)
  | none =>
    obtain ⟨rfl, rfl⟩ := Prod.mk.inj hr
    have hfit := hfit hp trivial
    refine ⟨es ++ [e], ⟨⟨[], by simpa using hwritten, torn_nil, fun _ => rfl⟩, fun _ => ?_,
      wf_concat h.wf hfit.1, h.applies_concat hfit⟩, prefix_append _ _, fun _ => rfl⟩
    show m.len + _ = _
    rw [hlen, frames_append, length_append, frames_singleton]
  | write n rb =>
    obtain ⟨rfl, rfl⟩ := Prod.mk.inj hr
    -- where the file is cut, it is cut to what it held before the write
    have hcut : (m.file ++ (encodeFrame crc e).take n).take m.len = frames crc es := by
      rw [hfile, hlen, take_left]
    have hback {m' : Manifest} (hfile' : m'.file = frames crc es) (hlen' : m'.len = m.len) :
        InStep crc m' es :=
      ⟨⟨[], by simpa using hfile', torn_nil, fun _ => rfl⟩, fun _ => hlen'.trans hlen, h.wf,
        h.applies⟩
    cases rb with
    | none | seek | sync => exact ⟨es, hback hcut rfl, prefix_refl _, by simp⟩
    | setLen =>
      by_cases hn : n < (encodeFrame crc e).length
      · refine ⟨es, ⟨⟨(encodeFrame crc e).take n, ?_, ⟨e, n, hn, rfl⟩, ?_⟩, ?_, h.wf, h.applies⟩,
          prefix_refl _, by simp⟩
        · show m.file ++ _ = _
          rw [hfile]
        · intro hpois; cases hpois
        · intro hpois; cases hpois
      · have hfit := hfit hp (Nat.le_of_not_lt hn)
        refine ⟨es ++ [e], ⟨⟨[], ?_, torn_nil, fun _ => rfl⟩, ?_, wf_concat h.wf hfit.1,
          h.applies_concat hfit⟩, prefix_append _ _, by simp⟩
        · show m.file ++ _ = _
          rw [take_of_length_le (Nat.le_of_not_lt hn), hwritten, append_nil]
        · intro hpois; cases hpois

/-- Where the frames of a handle in step end. -/
theorem InStep.longest (h : InStep crc m es) (hp : m.poisoned = false) :
    LongestFramePrefix crc m.file m.len := by
  rw [h.file_eq hp, h.len hp]
  exact ⟨⟨es, h.wf, prefix_refl _, rfl⟩, fun es' _ hpre => hpre.length_le⟩

theorem InStep.replays {oks : List ManifestEdit} (h : InStep crc m es) (hoks : oks.Sublist es) :
    Replays crc ⟨m, oks⟩ := by
  obtain ⟨stray, hfile, htorn, _⟩ := h.file
  obtain ⟨st, hst⟩ := h.applies
  have hrep := replayManifest_frames h.wf hst htorn
  rw [← hfile] at hrep
  refine ⟨_, es, hrep, ?_, hst, hoks, h.longest⟩
  rw [hfile, take_left]

end Run

/--
**Appends that fail leave a manifest that replays.** Open any file, then append in any
sequence with any writes and rollbacks failing. As long as no sync fails behind a write
that went through, the file replays in every state reached, every accepted edit is
replayed in order, and `len` is where the frames end.
-/
theorem appends_replay {file : Bytes} {synced : Nat} {m : Manifest} {r : ManifestReplayResult}
    (hopen : Manifest.openFile crc file synced = .ok (m, r)) :
    ∃ found, m.file = frames crc found ∧ ManifestState.applyAll {} found = .ok r.state ∧
      ∀ s, Reach (appendCall crc) (SyncedCall crc) ⟨m, found⟩ s → Replays crc s := by
  obtain ⟨found, hstep, hfile, hst⟩ := inStep_openFile hopen
  refine ⟨found, hfile, hst, fun s hreach => ?_⟩
  -- the edits of the file, of which those returned `Ok` are a part
  have hinv : ∃ es, InStep crc s.manifest es ∧ s.oks.Sublist es := by
    refine hreach.invariant (P := fun s => ∃ es, InStep crc s.manifest es ∧ s.oks.Sublist es)
      ⟨found, hstep, List.Sublist.refl _⟩ ?_
    rintro t u ⟨e, fault⟩ ⟨es, hes, hoks⟩ hc hu
    unfold appendCall at hu
    cases hr : t.manifest.appendSync crc e fault with
    | mk m' ok =>
      rw [hr] at hu
      cases hu
      obtain ⟨es', hes', hpre, hok⟩ := inStep_appendSync hes hc.1 hc.2 hr
      refine ⟨es', hes', ?_⟩
      cases ok with
      | true =>
        rw [hok rfl]
        exact hoks.append (List.Sublist.refl _)
      | false => exact hoks.trans hpre.sublist
  obtain ⟨es, hes, hoks⟩ := hinv
  exact hes.replays hoks

/-! ## Two runs -/

/-- A table is added but its sync fails, a checkpoint is appended, and then a write fails:
the file is cut inside the table's frame, and the next checkpoint is written there. -/
def unsyncedAppend (fault : AppendFault) : List (ManifestEdit × AppendFault) :=
  [(.addSstable 1 1 4 64, fault), (.setCheckpoint 4 0 0, .none),
    (.addSstable 2 5 6 64, .write 3 .none), (.setCheckpoint 6 0 0, .none)]

/-- **A failed sync and then a failed write** lose an edit that was returned `Ok` and leave
a file that does not replay. -/
theorem failed_sync_then_write_corrupts :
    ∃ s, Reach (appendCall crc32c) (FittingCall crc32c) ⟨{}, []⟩ s ∧
      s.manifest.poisoned = false ∧ s.oks = [.setCheckpoint 4 0 0, .setCheckpoint 6 0 0] ∧
      replayManifest crc32c s.manifest.file = .error (.checksumMismatch 0) ∧
      ¬ Replays crc32c s := by
  obtain ⟨s, hreach, hp, hoks, hrep⟩ : ∃ s,
      Reach (appendCall crc32c) (FittingCall crc32c) ⟨{}, []⟩ s ∧ s.manifest.poisoned = false ∧
      s.oks = [.setCheckpoint 4 0 0, .setCheckpoint 6 0 0] ∧
      replayManifest crc32c s.manifest.file = .error (.checksumMismatch 0) :=
    exists_reach_of_run (unsyncedAppend .sync) (by decide +kernel)
  refine ⟨s, hreach, hp, hoks, hrep, ?_⟩
  rintro ⟨r, es, hr, _⟩
  rw [hrep] at hr
  cases hr

/-- The same appends with nothing wrong but the one write. -/
theorem appends_replay_failed_write :
    ∃ s, Reach (appendCall crc32c) (SyncedCall crc32c) ⟨{}, []⟩ s ∧ s.oks.length = 3 ∧
      Replays crc32c s := by
  obtain ⟨s, hreach, hlen⟩ : ∃ s,
      Reach (appendCall crc32c) (SyncedCall crc32c) ⟨{}, []⟩ s ∧ s.oks.length = 3 :=
    exists_reach_of_run (unsyncedAppend .none) (by decide +kernel)
  have hopen : Manifest.openFile crc32c [] 0 = .ok ({}, {}) := by decide +kernel
  obtain ⟨found, hfile, _, hall⟩ := appends_replay hopen
  have hnil : found = [] := by
    cases found with
    | nil => rfl
    | cons e es => simp [frames, encodeFrame, frame, leBytes] at hfile
  exact ⟨s, hreach, hlen, hall s (hnil ▸ hreach)⟩

end RubixDb.Proof
