import RubixDb.Storage.Engine

/-!
# What applying a record does

A record is applied by inserting its members one after another under the record's own
sequence number. So an apply adds exactly the record's versions, never touches a
version of another sequence number, and gives the same versions whatever MemTable it
runs on: live apply and WAL replay agree.

The apply tracker's half of the story is here too: everything at or below the
contiguous mark was accounted for, or was already below the mark at the start.
-/

namespace RubixDb.Proof

open Lib List

variable {seq ckpt : Nat} {r : WalRecord} {e : Entry} {m : MemTable} {P : Nat → Prop}
    {t : ApplyTracker} {c₀ : Nat} {seqs : List Nat}

/-- The inserts a record makes, in order. -/
def writes : WalOp → List (Key × MemtableValue)
  | .put key value => [(key, .put value)]
  | .delete key => [(key, .tombstone)]
  | .checkpointMarker _ => []
  | .group members => members.map fun
      | .put key value => (key, .put value)
      | .delete key => (key, .tombstone)

def insertAll (seq : Nat) (m : MemTable) (kvs : List (Key × MemtableValue)) : MemTable :=
  kvs.foldl (fun m kv => m.insert kv.1 seq kv.2) m

theorem applyWalOp_eq (m : MemTable) (seq : Nat) (op : WalOp) :
    applyWalOp m seq op = insertAll seq m (writes op) := by
  cases op with
  | put key value => rfl
  | delete key => rfl
  | checkpointMarker n => rfl
  | group members =>
    show members.foldl (applyMember seq) m = _
    induction members generalizing m with
    | nil => rfl
    | cons g members ih =>
      rw [foldl_cons, ih]
      cases g <;> rfl

/-! ## The versions of a record -/

/-- What the last write of a key writes. -/
def lastWrite (kvs : List (Key × MemtableValue)) (k : Key) : Option MemtableValue :=
  kvs.foldl (fun last kv => if kv.1 = k then some kv.2 else last) none

/-- The inserts leave the last write of each key, and of the rest what they do not replace. -/
theorem mem_insertAll {kvs : List (Key × MemtableValue)} : e ∈ (insertAll seq m kvs).map ↔
    (e.seq = seq ∧ lastWrite kvs e.key = some e.value) ∨
      (e ∈ m.map ∧ ¬ (e.seq = seq ∧ (lastWrite kvs e.key).isSome)) := by
  induction kvs using List.reverseRecOn with
  | nil => simp [insertAll, lastWrite]
  | append_singleton kvs kv ih =>
    have hmap : insertAll seq m (kvs ++ [kv]) = (insertAll seq m kvs).insert kv.1 seq kv.2 := by
      simp [insertAll]
    have hlast : lastWrite (kvs ++ [kv]) e.key =
        if kv.1 = e.key then some kv.2 else lastWrite kvs e.key := by
      simp [lastWrite]
    obtain ⟨k, s, v⟩ := e
    rw [hmap, hlast, MemTable.mem_insert, ih]
    by_cases hk : kv.1 = k
    · -- the new write is the last one, and what it replaces is gone
      by_cases hs : s = seq
      · simp [hk, hs, @eq_comm _ v]
      · simp [hk, hs]
    · simp [hk, Ne.symm hk]

theorem mem_entries :
    e ∈ r.entries ↔ e.seq = r.seq ∧ lastWrite (writes r.op) e.key = some e.value := by
  unfold WalRecord.entries
  rw [applyWalOp_eq, mem_insertAll]
  simp

/-- All versions of a record carry its sequence number. -/
theorem entries_seq (h : e ∈ r.entries) : e.seq = r.seq := (mem_entries.mp h).1

/-- A record has at most one version of a key. -/
theorem entries_unique {e' : Entry} (h : e ∈ r.entries) (h' : e' ∈ r.entries)
    (hk : e.key = e'.key) : e = e' :=
  (applyWalOp (MemTable.new 0) r.seq r.op).coherent e h e' h' hk
    ((entries_seq h).trans (entries_seq h').symm)

/-- **An apply adds the record's versions** and replaces those of the same key and number. -/
theorem mem_applyWalOp_iff : e ∈ (applyWalOp m r.seq r.op).map ↔
    e ∈ r.entries ∨ (e ∈ m.map ∧ ¬ ∃ e' ∈ r.entries, e'.key = e.key ∧ e'.seq = e.seq) := by
  have hreplaced : (e.seq = r.seq ∧ (lastWrite (writes r.op) e.key).isSome) ↔
      ∃ e' ∈ r.entries, e'.key = e.key ∧ e'.seq = e.seq := by
    constructor
    · rintro ⟨hs, hsome⟩
      obtain ⟨v, hv⟩ := Option.isSome_iff_exists.mp hsome
      exact ⟨⟨e.key, r.seq, v⟩, mem_entries.mpr ⟨rfl, hv⟩, rfl, hs.symm⟩
    · rintro ⟨e', he', hk, hs⟩
      obtain ⟨hseq, hlast⟩ := mem_entries.mp he'
      rw [← hs, ← hk, hlast]
      exact ⟨hseq, rfl⟩
  rw [applyWalOp_eq, mem_insertAll, ← mem_entries, hreplaced]

/-- After the apply, a version is one of the record's or was there before. -/
theorem mem_applyWalOp (h : e ∈ (applyWalOp m r.seq r.op).map) : e ∈ r.entries ∨ e ∈ m.map :=
  (mem_applyWalOp_iff.mp h).imp_right And.left

/-- The apply adds the record's versions. -/
theorem entries_mem_applyWalOp (h : e ∈ r.entries) : e ∈ (applyWalOp m r.seq r.op).map :=
  mem_applyWalOp_iff.mpr (.inl h)

/-- A version stays unless the record has one of the same key and number. -/
theorem applyWalOp_keeps_or (h : e ∈ m.map) :
    e ∈ (applyWalOp m r.seq r.op).map ∨ ∃ e' ∈ r.entries, e'.key = e.key ∧ e'.seq = e.seq := by
  by_cases hnew : ∃ e' ∈ r.entries, e'.key = e.key ∧ e'.seq = e.seq
  · exact .inr hnew
  · exact .inl (mem_applyWalOp_iff.mpr (.inr ⟨h, hnew⟩))

/-- The apply leaves versions of other sequence numbers alone. -/
theorem applyWalOp_keeps (h : e ∈ m.map) (hne : e.seq ≠ r.seq) :
    e ∈ (applyWalOp m r.seq r.op).map := by
  rcases applyWalOp_keeps_or h with h | ⟨e', he', -, hs⟩
  · exact h
  · exact absurd (hs.symm.trans (entries_seq he')) hne

/-! ## WAL replay -/

theorem mem_replayWal {rs : List WalRecord} {m : MemTable} {e : Entry}
    (h : e ∈ (replayWal m ckpt rs).map) : e ∈ m.map ∨ ∃ r ∈ rs, ckpt < r.seq ∧ e ∈ r.entries := by
  induction rs generalizing m e with
  | nil => exact .inl h
  | cons r rs ih =>
    have h' : e ∈ (replayWal (if r.seq ≤ ckpt then m else applyWalOp m r.seq r.op) ckpt rs).map := h
    rcases ih h' with h' | ⟨r', hr', hc, he⟩
    · split at h'
      · exact .inl h'
      · rename_i hc
        rcases mem_applyWalOp h' with he | he
        · exact .inr ⟨r, by simp, by omega, he⟩
        · exact .inl he
    · exact .inr ⟨r', mem_cons_of_mem _ hr', hc, he⟩

/-- Replaying later records keeps what is there. -/
theorem replayWal_keeps {rs : List WalRecord} {m : MemTable} {e : Entry} (h : e ∈ m.map)
    (hne : ∀ r ∈ rs, e.seq ≠ r.seq) : e ∈ (replayWal m ckpt rs).map := by
  induction rs generalizing m e with
  | nil => exact h
  | cons r rs ih =>
    show e ∈ (replayWal (if r.seq ≤ ckpt then m else applyWalOp m r.seq r.op) ckpt rs).map
    refine ih ?_ fun r' hr' => hne r' (mem_cons_of_mem _ hr')
    split
    · exact h
    · exact applyWalOp_keeps h (hne r (by simp))

/-- **Replay finds every record above the checkpoint.** -/
theorem entries_mem_replayWal {rs : List WalRecord} {m : MemTable} {r : WalRecord} {e : Entry}
    (hs : rs.Pairwise fun a b => a.seq < b.seq) (hr : r ∈ rs) :
    ckpt < r.seq → e ∈ r.entries → e ∈ (replayWal m ckpt rs).map := by
  induction rs generalizing m r e with
  | nil => exact absurd hr (by simp)
  | cons r' rs ih =>
    intro hc he
    obtain ⟨hr', hs'⟩ := pairwise_cons.mp hs
    show e ∈ (replayWal (if r'.seq ≤ ckpt then m else applyWalOp m r'.seq r'.op) ckpt rs).map
    rcases mem_cons.mp hr with rfl | hr
    · rw [if_neg (by omega)]
      refine replayWal_keeps (entries_mem_applyWalOp he) fun x hx => ?_
      have := hr' x hx
      rw [entries_seq he]
      omega
    · exact ih hs' hr hc he

/-! ## The apply tracker -/

/-- Everything up to the contiguous mark satisfies `P`, and so does all that waits above. -/
def Accounted (P : Nat → Prop) (t : ApplyTracker) : Prop :=
  (∀ n, n ≤ t.contiguous → P n) ∧ ∀ n ∈ t.above, P n

theorem accounted_advance {fuel : Nat} {t : ApplyTracker} (h : Accounted P t) :
    Accounted P (ApplyTracker.advance fuel t) := by
  induction fuel generalizing t with
  | zero => exact h
  | succ fuel ih =>
    unfold ApplyTracker.advance
    split_ifs with hmem
    · refine ih ⟨fun n hn => ?_, fun n hn => h.2 n (mem_filter.mp hn).1⟩
      by_cases hn' : n ≤ t.contiguous
      · exact h.1 n hn'
      · have hn : n ≤ t.contiguous + 1 := hn
        rw [show n = t.contiguous + 1 by omega]
        exact h.2 _ hmem
    · exact h

/-- **The mark only passes what was accounted for.** -/
theorem accounted_account (h : Accounted P t) (hs : P seq) : Accounted P (t.account seq) := by
  unfold ApplyTracker.account
  split
  · exact h
  · refine accounted_advance ⟨h.1, fun n hn => ?_⟩
    split at hn
    · exact h.2 n hn
    · rcases mem_cons.mp hn with rfl | hn
      · exact hs
      · exact h.2 n hn

theorem contiguous_advance_le {fuel : Nat} {t : ApplyTracker} :
    t.contiguous ≤ (ApplyTracker.advance fuel t).contiguous := by
  induction fuel generalizing t with
  | zero => exact Nat.le_refl _
  | succ fuel ih =>
    unfold ApplyTracker.advance
    split
    · exact Nat.le_trans (Nat.le_succ _) (ih (t := ⟨t.contiguous + 1, _⟩))
    · exact Nat.le_refl _

/-- The contiguous mark never moves back. -/
theorem contiguous_account_le (t : ApplyTracker) (seq : Nat) :
    t.contiguous ≤ (t.account seq).contiguous := by
  unfold ApplyTracker.account
  split
  · exact Nat.le_refl _
  · dsimp only
    generalize (if seq ∈ t.above then t.above else seq :: t.above) = above
    exact @contiguous_advance_le above.length ⟨t.contiguous, above⟩

/-- What the tracker holds after the calls `seqs`, from the start value `c₀`. -/
structure Counts (c₀ : Nat) (seqs : List Nat) (t : ApplyTracker) : Prop where
  start : c₀ ≤ t.contiguous
  below : ∀ n, c₀ < n → n ≤ t.contiguous → n ∈ seqs
  above : ∀ n, n ∈ t.above ↔ n ∈ seqs ∧ t.contiguous < n

/-- The loop goes on until the next number is not waiting. -/
theorem counts_advance {fuel : Nat} {t : ApplyTracker} (h : Counts c₀ seqs t)
    (hlen : t.above.length ≤ fuel) :
    Counts c₀ seqs (.advance fuel t) ∧
      (ApplyTracker.advance fuel t).contiguous + 1 ∉ (ApplyTracker.advance fuel t).above := by
  induction fuel generalizing t with
  | zero =>
    have hnil : t.above = [] := length_eq_zero_iff.mp (Nat.le_zero.mp hlen)
    exact ⟨h, by simp [ApplyTracker.advance, hnil]⟩
  | succ fuel ih =>
    unfold ApplyTracker.advance
    split_ifs with hmem
    · refine ih ⟨Nat.le_succ_of_le h.start, ?_, ?_⟩ ?_
      · intro n hlo hhi
        rcases Nat.le_succ_iff.mp hhi with hle | heq
        · exact h.below n hlo hle
        · exact heq ▸ ((h.above _).mp hmem).1
      · intro n
        rw [mem_filter, h.above, decide_eq_true_iff, and_assoc]
        exact and_congr_right fun _ => by dsimp only; omega
      · have : (t.above.filter (· ≠ t.contiguous + 1)).length < t.above.length :=
          length_filter_lt_length_iff_exists.mpr ⟨_, hmem, by simp⟩
        exact Nat.le_of_lt_succ (this.trans_le hlen)
    · exact ⟨h, ‹_›⟩

theorem counts_account (h : Counts c₀ seqs t) (hstop : t.contiguous + 1 ∉ t.above) (seq : Nat) :
    Counts c₀ (seqs ++ [seq]) (t.account seq) ∧
      (t.account seq).contiguous + 1 ∉ (t.account seq).above := by
  have hbelow : ∀ n, c₀ < n → n ≤ t.contiguous → n ∈ seqs ++ [seq] := fun n hlo hhi =>
    mem_append_left _ (h.below n hlo hhi)
  unfold ApplyTracker.account
  split
  · rename_i hle
    refine ⟨⟨h.start, hbelow, fun n => ?_⟩, hstop⟩
    rw [h.above, mem_append, mem_singleton]
    grind
  · refine counts_advance ⟨h.start, hbelow, fun n => ?_⟩ (Nat.le_refl _)
    have hadd : n ∈ (if seq ∈ t.above then t.above else seq :: t.above) ↔
        n ∈ t.above ∨ n = seq := by
      grind
    rw [hadd, h.above, mem_append, mem_singleton]
    grind

/-- The tracker after the calls of `account` for `seqs`. -/
def accountAll (c₀ : Nat) (seqs : List Nat) : ApplyTracker :=
  seqs.foldl ApplyTracker.account ⟨c₀, []⟩

/-- **The contiguous mark** is the greatest number up to which everything was accounted for,
in whatever order and however often; it never moves back, and above it waits exactly what
was accounted for beyond. At `u64::MAX` the source's `contiguous + 1` comes to 0, which
never waits. -/
theorem tracker_counts (c₀ : Nat) (seqs : List Nat) :
    IsGreatest {n | c₀ ≤ n ∧ ∀ s, c₀ < s → s ≤ n → s ∈ seqs} (accountAll c₀ seqs).contiguous ∧
      (∀ seq, (accountAll c₀ seqs).contiguous ≤ (accountAll c₀ (seqs ++ [seq])).contiguous) ∧
      ∀ n, n ∈ (accountAll c₀ seqs).above ↔ n ∈ seqs ∧ (accountAll c₀ seqs).contiguous < n := by
  have hsnoc : ∀ seqs seq, accountAll c₀ (seqs ++ [seq]) = (accountAll c₀ seqs).account seq := by
    simp [accountAll]
  obtain ⟨h, hstop⟩ : Counts c₀ seqs (accountAll c₀ seqs) ∧
      (accountAll c₀ seqs).contiguous + 1 ∉ (accountAll c₀ seqs).above := by
    induction seqs using List.reverseRecOn with
    | nil =>
      refine ⟨⟨Nat.le_refl _, ?_, by simp [accountAll]⟩, by simp [accountAll]⟩
      intro n hlo hhi
      exact absurd hhi (Nat.not_le.mpr hlo)
    | append_singleton seqs seq ih =>
      rw [hsnoc]
      exact counts_account ih.1 ih.2 seq
  refine ⟨⟨⟨h.start, h.below⟩, ?_⟩, fun seq => ?_, h.above⟩
  · rintro n ⟨-, hn⟩
    -- the next number has not been accounted for
    by_contra hlt
    exact hstop ((h.above _).mpr ⟨hn _ (by have := h.start; omega) (by omega), Nat.lt_succ_self _⟩)
  · rw [hsnoc]
    exact contiguous_account_le _ seq

end RubixDb.Proof
