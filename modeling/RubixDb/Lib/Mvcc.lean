import RubixDb.Lib.Versions

/-!
# A multi-version store written in batches

The store is a list of versions whose value is absent for a deletion. A batch writes all
its keys at one sequence number, the last operation on a key winning. `readAt` is the read
of a key as of a sequence number.

The lemmas say what a batch does to a read: nothing to a key it does not write, nothing to
a read below its number, and its own operation to a read at or above it, if it is newer
than what the key has.
-/

namespace Lib

open List

variable {K V : Type}

/-- The operations of one atomic write; an absent value deletes the key. -/
abbrev Ops (K V : Type) := List (K × Option V)

abbrev Store (K V : Type) := List (Version K (Option V))

/-- The last operation on a key. -/
def lastOp [DecidableEq K] (ops : Ops K V) (k : K) : Option (Option V) :=
  (ops.reverse.find? fun op => op.1 = k).map (·.2)

/-- Some operation is on `k`. -/
def Writes (ops : Ops K V) (k : K) : Prop := ∃ v, (k, v) ∈ ops

section

variable [DecidableEq K] {A : Type} {es : Store K V} {ops : Ops K V} {kvs : List (K × V)} {k : K}
    {v : Option V} {seq s : Nat}

/-- One version in place of any that has its key and number. -/
def putVersion (es : Store K V) (v : Version K (Option V)) : Store K V :=
  es.filter (fun w => ¬ (w.key = v.key ∧ w.seq = v.seq)) ++ [v]

def applyOps (es : Store K V) (seq : Nat) (ops : Ops K V) : Store K V :=
  ops.foldl (fun es op => putVersion es ⟨op.1, seq, op.2⟩) es

def readAt (es : Store K V) (k : K) (s : Nat) : Option V :=
  (best es k s).bind (·.value)

/-- What `f` makes of the keys and values visible at `s`. -/
def scanAt {B : Type} (es : Store K V) (s : Nat) (f : K → V → Option B) : List B :=
  (es.map (·.key)).dedup.filterMap fun k => (readAt es k s).bind (f k)

/-- The largest number there is, so that a read at it sees everything. -/
def topSeq (es : Store K V) : Nat := (es.map (·.seq)).foldr max 0

/-- The latest value of a key. -/
def readNow (es : Store K V) (k : K) : Option V := readAt es k (topSeq es)

/-! ## Membership -/

theorem mem_putVersion {v w : Version K (Option V)} :
    w ∈ putVersion es v ↔ w = v ∨ (w ∈ es ∧ ¬ (w.key = v.key ∧ w.seq = v.seq)) := by
  simp only [putVersion, mem_append, mem_filter, mem_singleton, decide_eq_true_eq]
  tauto

theorem coherent_putVersion (h : Coherent es) (v : Version K (Option V)) :
    Coherent (putVersion es v) := by
  intro a ha b hb hk hs
  rcases mem_putVersion.mp ha with ha | ⟨ha, hav⟩
  · rcases mem_putVersion.mp hb with hb | ⟨_, hbv⟩
    · rw [ha, hb]
    · rw [ha] at hk hs
      exact absurd ⟨hk.symm, hs.symm⟩ hbv
  · rcases mem_putVersion.mp hb with hb | ⟨hb, _⟩
    · rw [hb] at hk hs
      exact absurd ⟨hk, hs⟩ hav
    · exact h a ha b hb hk hs

theorem coherent_applyOps {ops : Ops K V} {es : Store K V} (h : Coherent es) :
    Coherent (applyOps es seq ops) := by
  induction ops generalizing es with
  | nil => exact h
  | cons op ops ih => exact ih (coherent_putVersion h _)

theorem lastOp_cons (op : K × Option V) (ops : Ops K V) (k : K) :
    lastOp (op :: ops) k = (lastOp ops k).or (if op.1 = k then some op.2 else none) := by
  rw [lastOp, lastOp, reverse_cons, find?_append]
  cases ops.reverse.find? fun op => op.1 = k with
  | some o => rfl
  | none =>
    by_cases hk : op.1 = k
    · simp [hk]
    · simp [hk]

theorem mem_of_lastOp (h : lastOp ops k = some v) : (k, v) ∈ ops := by
  obtain ⟨op, hop, rfl⟩ := Option.map_eq_some_iff.mp h
  have hkey : op.1 = k := by simpa using find?_some hop
  rw [← hkey]
  exact mem_reverse.mp (mem_of_find?_eq_some hop)

theorem lastOp_append (xs ys : Ops K V) (k : K) :
    lastOp (xs ++ ys) k = (lastOp ys k).or (lastOp xs k) := by
  rw [lastOp, lastOp, reverse_append, find?_append]
  cases ys.reverse.find? fun op => op.1 = k with
  | some op => rfl
  | none => rfl

theorem lastOp_eq_none_iff : lastOp ops k = none ↔ ¬ Writes ops k := by
  rw [lastOp, Option.map_eq_none_iff, find?_eq_none]
  constructor
  · rintro h ⟨v, hv⟩
    exact h (k, v) (mem_reverse.mpr hv) (by simp)
  · intro h op hop hk
    have hk : op.1 = k := by simpa using hk
    exact h ⟨op.2, hk ▸ mem_reverse.mp hop⟩

/-- The last operation of a sequence of groups is the last one of the last group that has
any on the key. -/
theorem lastOp_flatMap_eq_some {f : A → Ops K V} {as : List A}
    (h : lastOp (as.flatMap f) k = some v) :
    ∃ pre a post, as = pre ++ a :: post ∧ lastOp (f a) k = some v ∧
      ∀ b ∈ post, lastOp (f b) k = none := by
  induction as with
  | nil => cases h
  | cons a as ih =>
    rw [flatMap_cons, lastOp_append] at h
    cases hrest : lastOp (as.flatMap f) k with
    | some w =>
      rw [hrest] at h
      obtain ⟨pre, b, post, rfl, hb, hpost⟩ := ih (hrest.trans h)
      exact ⟨a :: pre, b, post, rfl, hb, hpost⟩
    | none =>
      rw [hrest] at h
      refine ⟨[], a, as, rfl, h, fun b hb => lastOp_eq_none_iff.mpr fun hw => ?_⟩
      obtain ⟨w, hw⟩ := hw
      exact lastOp_eq_none_iff.mp hrest ⟨w, mem_flatMap.mpr ⟨b, hb, hw⟩⟩

theorem lastOp_flatMap_of_last {f : A → Ops K V} {pre post : List A} {a : A}
    (ha : lastOp (f a) k = some v) (hpost : ∀ b ∈ post, lastOp (f b) k = none) :
    lastOp ((pre ++ a :: post).flatMap f) k = some v := by
  have hnone : lastOp (post.flatMap f) k = none := by
    refine lastOp_eq_none_iff.mpr fun hw => ?_
    obtain ⟨w, hw⟩ := hw
    obtain ⟨b, hb, hw⟩ := mem_flatMap.mp hw
    exact lastOp_eq_none_iff.mp (hpost b hb) ⟨w, hw⟩
  rw [flatMap_append, flatMap_cons, lastOp_append, lastOp_append, hnone, ha]
  rfl

theorem lastOp_flatMap_eq_none_iff {f : A → Ops K V} {as : List A} :
    lastOp (as.flatMap f) k = none ↔ ∀ a ∈ as, lastOp (f a) k = none := by
  simp only [lastOp_eq_none_iff, Writes, mem_flatMap]
  constructor
  · rintro h a ha ⟨v, hv⟩
    exact h ⟨v, a, ha, hv⟩
  · rintro h ⟨v, a, ha, hv⟩
    exact h a ha ⟨v, hv⟩

/-- What a batch leaves in the store: its own last operations, and of the rest whatever it
does not overwrite. -/
theorem mem_applyOps {w : Version K (Option V)} {ops : Ops K V} {es : Store K V} :
    w ∈ applyOps es seq ops ↔ (w.seq = seq ∧ lastOp ops w.key = some w.value) ∨
      (w ∈ es ∧ ¬ (w.seq = seq ∧ Writes ops w.key)) := by
  induction ops generalizing es with
  | nil =>
    simp [applyOps, lastOp, Writes]
  | cons op ops ih =>
    have hstep : applyOps es seq (op :: ops) = applyOps (putVersion es ⟨op.1, seq, op.2⟩) seq ops :=
      rfl
    have hwrites : Writes (op :: ops) w.key ↔ op.1 = w.key ∨ Writes ops w.key := by
      constructor
      · rintro ⟨v, hv⟩
        rcases mem_cons.mp hv with rfl | hv
        · exact .inl rfl
        · exact .inr ⟨v, hv⟩
      · rintro (hk | ⟨v, hv⟩)
        · exact ⟨op.2, mem_cons.mpr (.inl (by rw [← hk]))⟩
        · exact ⟨v, mem_cons_of_mem _ hv⟩
    rw [hstep, ih, mem_putVersion, lastOp_cons, hwrites]
    -- whether a later operation of the batch writes the key decides which one stays
    cases hl : lastOp ops w.key with
    | some v =>
      have hw : Writes ops w.key := by
        by_contra hn
        rw [lastOp_eq_none_iff.mpr hn] at hl
        cases hl
      simp only [Option.some_or, hw, and_true, or_true]
      constructor
      · rintro (h | ⟨rfl | ⟨hm, _⟩, hs⟩)
        · exact .inl h
        · exact absurd rfl hs
        · exact .inr ⟨hm, hs⟩
      · rintro (h | ⟨hm, hs⟩)
        · exact .inl h
        · exact .inr ⟨.inr ⟨hm, fun h => hs h.2⟩, hs⟩
    | none =>
      have hn : ¬ Writes ops w.key := lastOp_eq_none_iff.mp hl
      simp only [Option.none_or, hn, and_false, not_false_eq_true, and_true, or_false,
        reduceCtorEq, false_or]
      by_cases hk : op.1 = w.key
      · rw [if_pos hk]
        constructor
        · rintro (hw | ⟨hm, hs⟩)
          · rw [hw]
            exact .inl ⟨rfl, rfl⟩
          · exact .inr ⟨hm, fun h => hs ⟨hk.symm, h.1⟩⟩
        · rintro (⟨hs, hv⟩ | ⟨hm, hs⟩)
          · refine .inl ?_
            rw [hk, ← hs, Option.some.inj hv]
          · exact .inr ⟨hm, fun h => hs ⟨h.2, hk⟩⟩
      · rw [if_neg hk]
        constructor
        · rintro (hw | ⟨hm, _⟩)
          · rw [hw] at hk
            exact absurd rfl hk
          · exact .inr ⟨hm, fun h => hk h.2⟩
        · rintro (⟨_, hv⟩ | ⟨hm, _⟩)
          · cases hv
          · exact .inr ⟨hm, fun h => hk h.1.symm⟩

/-! ## Reads -/

theorem readAt_congr {fs : Store K V} (hc : Coherent fs)
    (h : ∀ e, Visible k s e → (e ∈ es ↔ e ∈ fs)) : readAt es k s = readAt fs k s := by
  rw [readAt, readAt, best_congr hc h]

theorem readAt_applyOps_of_not_writes (hc : Coherent es)
    (h : ¬ Writes ops k) : readAt (applyOps es seq ops) k s = readAt es k s := by
  refine readAt_congr hc fun e hv => ?_
  rw [mem_applyOps, hv.1, lastOp_eq_none_iff.mpr h]
  simp [h]

theorem readAt_applyOps_of_lt (hc : Coherent es)
    (h : s < seq) : readAt (applyOps es seq ops) k s = readAt es k s := by
  refine readAt_congr hc fun e hv => ?_
  have hne : e.seq ≠ seq := by have := hv.2; omega
  rw [mem_applyOps]
  simp [hne]

/-- A batch newer than what the key has decides every read at or above it. -/
theorem readAt_applyOps_of_writes (hc : Coherent es) (hv : lastOp ops k = some v) (hs : seq ≤ s)
    (hnew : ∀ w ∈ es, w.key = k → w.seq ≤ s → w.seq ≤ seq) :
    readAt (applyOps es seq ops) k s = v := by
  have hbest : IsBest (applyOps es seq ops) k s ⟨k, seq, v⟩ := by
    refine ⟨mem_applyOps.mpr (.inl ⟨rfl, hv⟩), ⟨rfl, hs⟩, ?_⟩
    intro w hw hvis
    rcases mem_applyOps.mp hw with ⟨hseq, _⟩ | ⟨hm, _⟩
    · exact Nat.le_of_eq hseq
    · exact hnew w hm hvis.1 hvis.2
  rw [readAt, best_eq_of_isBest (coherent_applyOps hc) hbest]
  rfl

theorem mem_keys_of_readAt {v : V} (h : readAt es k s = some v) : k ∈ es.map (·.key) := by
  obtain ⟨e, hb, _⟩ := Option.bind_eq_some_iff.mp h
  obtain ⟨hm, hv, _⟩ := isBest_of_best hb
  exact mem_map.mpr ⟨e, hm, hv.1⟩

theorem mem_scanAt {B : Type} {f : K → V → Option B} {b : B} :
    b ∈ scanAt es s f ↔ ∃ k v, readAt es k s = some v ∧ f k v = some b := by
  rw [scanAt, mem_filterMap]
  constructor
  · rintro ⟨k, _, h⟩
    obtain ⟨v, hv, hf⟩ := Option.bind_eq_some_iff.mp h
    exact ⟨k, v, hv, hf⟩
  · rintro ⟨k, v, hv, hf⟩
    exact ⟨k, mem_dedup.mpr (mem_keys_of_readAt hv), Option.bind_eq_some_iff.mpr ⟨v, hv, hf⟩⟩

omit [DecidableEq K] in
theorem le_topSeq {v : Version K (Option V)} (h : v ∈ es) : v.seq ≤ topSeq es := by
  induction es with
  | nil => cases h
  | cons e es ih =>
    have hcons : topSeq (e :: es) = max e.seq (topSeq es) := rfl
    rcases mem_cons.mp h with rfl | h
    · omega
    · have := ih h
      omega

/-- Above everything there is, a read does not depend on the number. -/
theorem readAt_eq_readNow (hc : Coherent es)
    (h : ∀ v ∈ es, v.key = k → v.seq ≤ s) : readAt es k s = readNow es k := by
  rw [readNow, readAt, readAt]
  cases hb : best es k s with
  | none =>
    have hnone := best_eq_none_iff.mp hb
    rw [best_eq_none_iff.mpr fun w hw hv => hnone w hw ⟨hv.1, h w hw hv.1⟩]
  | some v =>
    obtain ⟨hm, hv, hmax⟩ := isBest_of_best hb
    have : IsBest es k (topSeq es) v :=
      ⟨hm, ⟨hv.1, le_topSeq hm⟩, fun w hw hwv => hmax w hw ⟨hwv.1, h w hw hwv.1⟩⟩
    rw [best_eq_of_isBest hc this]

/-- **The latest state after a batch** that is newer than everything: the batch's last
operation on the key, or what was there. -/
theorem readNow_applyOps (hc : Coherent es) (hnew : ∀ v ∈ es, v.seq < seq) (k : K) :
    readNow (applyOps es seq ops) k = (lastOp ops k).getD (readNow es k) := by
  have hle : ∀ v ∈ es, v.seq ≤ max seq (topSeq (applyOps es seq ops)) := by
    intro v hv
    have := hnew v hv
    omega
  have hle' : ∀ v ∈ applyOps es seq ops, v.seq ≤ max seq (topSeq (applyOps es seq ops)) := by
    intro v hv
    have := le_topSeq hv
    omega
  rw [← readAt_eq_readNow (coherent_applyOps hc) fun v hv _ => hle' v hv,
    ← readAt_eq_readNow hc fun v hv _ => hle v hv]
  cases hop : lastOp ops k with
  | none => exact readAt_applyOps_of_not_writes hc (lastOp_eq_none_iff.mp hop)
  | some v =>
    exact readAt_applyOps_of_writes hc hop (by omega) fun w hw _ _ => Nat.le_of_lt (hnew w hw)

/-! ## Stores written at once -/

/-- A store with one value for each key, written together. -/
def flat (kvs : List (K × V)) : Store K V := kvs.map fun kv => ⟨kv.1, 1, some kv.2⟩

theorem readAt_flat (hnodup : (kvs.map (·.1)).Nodup) (hs : 1 ≤ s)
    {v : V} : readAt (flat kvs) k s = some v ↔ (k, v) ∈ kvs := by
  have hmem : ∀ e : Version K (Option V),
      e ∈ flat kvs ↔ ∃ v, (e.key, v) ∈ kvs ∧ e = ⟨e.key, 1, some v⟩ := by
    intro e
    rw [flat, mem_map]
    constructor
    · rintro ⟨kv, hkv, rfl⟩
      exact ⟨kv.2, hkv, rfl⟩
    · rintro ⟨v, hv, he⟩
      exact ⟨(e.key, v), hv, he.symm⟩
  constructor
  · intro h
    obtain ⟨e, hb, hv⟩ := Option.bind_eq_some_iff.mp h
    obtain ⟨hm, ⟨hk, -⟩, -⟩ := isBest_of_best hb
    obtain ⟨w, hw, he⟩ := (hmem e).mp hm
    rw [he] at hv
    rw [← hk, ← Option.some.inj hv]
    exact hw
  · intro h
    obtain ⟨e, hb⟩ := best_isSome_of_mem ((hmem ⟨k, 1, some v⟩).mpr ⟨v, h, rfl⟩) ⟨rfl, hs⟩
    obtain ⟨hm, ⟨hk, -⟩, -⟩ := isBest_of_best hb
    obtain ⟨w, hw, he⟩ := (hmem e).mp hm
    -- one value for each key
    have hvw : (e.key, w) = (k, v) := inj_on_of_nodup_map hnodup hw h hk
    rw [readAt, hb, he]
    exact congrArg some (Prod.mk.inj hvw).2

theorem scanAt_flat {B : Type} (hnodup : (kvs.map (·.1)).Nodup) (hs : 1 ≤ s)
    (f : K → V → Option B) : scanAt (flat kvs) s f = kvs.filterMap fun kv => f kv.1 kv.2 := by
  have hkeys : (flat kvs).map (·.key) = kvs.map (·.1) := by rw [flat, map_map]; rfl
  rw [scanAt, hkeys, dedup_eq_self.mpr hnodup, filterMap_map]
  refine filterMap_congr fun kv hkv => ?_
  rw [Function.comp_apply, (readAt_flat hnodup hs).mpr hkv]
  rfl

omit [DecidableEq K] in
theorem topSeq_flat (h : kvs ≠ []) : topSeq (flat kvs) = 1 := by
  have hle : ∀ kvs : List (K × V), topSeq (flat kvs) ≤ 1 := by
    intro kvs
    induction kvs with
    | nil => exact Nat.zero_le 1
    | cons kv kvs ih => exact Nat.max_le.mpr ⟨Nat.le_refl 1, ih⟩
  cases kvs with
  | nil => exact absurd rfl h
  | cons kv kvs => exact Nat.le_antisymm (hle _) (Nat.le_max_left 1 _)

end

end Lib
