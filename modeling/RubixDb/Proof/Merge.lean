import RubixDb.Storage.Compaction

/-!
# What a merge keeps of a list of tables

`merge` gathers each key's versions from every input, sorts them and keeps, newest first,
everything above the oldest live snapshot and the first version at or below it. So:

* the output is in `(key, seq)` order and is a part of the inputs' records, copy by copy;
* a read at or above the oldest live snapshot finds in the output what it finds in the
  inputs, tombstones included;
* a record that stands in two inputs is not looked for. At or below the floor only one
  version of a key stays, so there its copies vanish; above the floor every copy stays.
  The output is strictly increasing exactly if no such record has a second copy.
-/

namespace RubixDb.Proof

open Lib List

variable {es : List Entry} {oldest : Option Nat} {inputs : List SsTable} {k : Key}

/-! ## One key -/

/-- With a floor, what stays is everything above it and the next version. -/
theorem keptOlder_some (o : Nat) : ∀ es : List Entry,
    keptOlder (some o) false es =
      (es.takeWhile fun e => o < e.seq) ++ (es.dropWhile fun e => o < e.seq).take 1 := by
  intro es
  induction es with
  | nil => rfl
  | cons e es ih =>
    by_cases he : o < e.seq
    · have hgo : ¬ e.seq ≤ o := by omega
      simp [keptOlder, he, hgo, ih]
    · have hgo : e.seq ≤ o := by omega
      have hstop : keptOlder (some o) true es = [] := by cases es <;> rfl
      simp [keptOlder, he, hgo, hstop]

theorem kept_some (o : Nat) (es : List Entry) :
    kept (some o) es =
      (es.takeWhile fun e => o < e.seq) ++ (es.dropWhile fun e => o < e.seq).take 1 := by
  cases es with
  | nil => rfl
  | cons e es => rw [← keptOlder_some]; rfl

theorem kept_none (es : List Entry) : kept none es = es.take 1 := by
  cases es with
  | nil => rfl
  | cons e es =>
    have hstop : keptOlder none true es = [] := by cases es <;> rfl
    simp [kept, hstop]

/-- Newest first, the versions above the floor come before all others. -/
theorem takeWhile_above {o : Nat} {es : List Entry} (hs : es.Pairwise fun a b => b.seq ≤ a.seq) :
    (es.takeWhile fun e => o < e.seq) = es.filter fun e => o < e.seq := by
  induction es with
  | nil => rfl
  | cons e es ih =>
    obtain ⟨he, hes⟩ := pairwise_cons.mp hs
    by_cases hgo : o < e.seq
    · simp [hgo, ih hes]
    · have hnone : (es.filter fun x => o < x.seq) = [] := by
        rw [filter_eq_nil_iff]
        intro x hx
        have := he x hx
        simp only [decide_eq_true_eq]
        omega
      simp [hgo, hnone]

theorem dropWhile_above_le {o : Nat} (hs : es.Pairwise fun a b => b.seq ≤ a.seq) :
    ∀ e ∈ es.dropWhile (fun e => o < e.seq), e.seq ≤ o := by
  induction es with
  | nil => intro e he; cases he
  | cons x es ih =>
    obtain ⟨hx, hes⟩ := pairwise_cons.mp hs
    intro e he
    by_cases hgo : o < x.seq
    · rw [dropWhile_cons, if_pos (by simpa using hgo)] at he
      exact ih hes e he
    · rw [dropWhile_cons, if_neg (by simpa using hgo)] at he
      rcases mem_cons.mp he with rfl | he
      · omega
      · have := hx e he
        omega

/-- **When the versions kept of one key are strictly ordered:** no two above the floor
have the same sequence number. -/
theorem kept_strict_iff (hs : es.Pairwise fun a b => b.seq ≤ a.seq) :
    ((kept oldest es).Pairwise fun a b => b.seq < a.seq) ↔
      ∀ o ∈ oldest, (es.filter fun e => o < e.seq).Pairwise fun a b => b.seq < a.seq := by
  cases oldest with
  | none =>
    have htake : (es.take 1).Pairwise fun a b => b.seq < a.seq := by
      cases es with
      | nil => exact List.Pairwise.nil
      | cons e es => simp
    rw [kept_none]
    simpa using htake
  | some o =>
    have hone : ((es.dropWhile fun e => o < e.seq).take 1).Pairwise fun a b => b.seq < a.seq := by
      cases es.dropWhile fun e => o < e.seq with
      | nil => exact List.Pairwise.nil
      | cons e es => simp
    rw [kept_some, takeWhile_above hs, pairwise_append]
    constructor
    · rintro ⟨habove, _⟩ o' ho'
      cases ho'
      exact habove
    · intro h
      refine ⟨h o rfl, hone, ?_⟩
      -- the one version from below the floor is below all the others
      intro a ha b hb
      have hao : o < a.seq := by simpa using (mem_filter.mp ha).2
      have hbo := dropWhile_above_le hs b (mem_of_mem_take hb)
      omega

theorem nodup_seqs_iff (hs : es.Pairwise fun a b => b.seq ≤ a.seq) :
    (es.Pairwise fun a b => b.seq < a.seq) ↔ (es.map (·.seq)).Nodup := by
  rw [List.Nodup, pairwise_map]
  constructor
  · exact fun h => h.imp fun hlt => by omega
  · intro h
    exact (hs.and h).imp fun ⟨hle, hne⟩ => by omega

/-- The same, in terms of the key's versions as the inputs hold them. -/
theorem retainKey_strict_iff {vs : List Entry} :
    ((retainKey oldest vs).Pairwise fun a b => a.seq < b.seq) ↔
      ∀ o ∈ oldest, ((vs.filter fun e => o < e.seq).map (·.seq)).Nodup := by
  have hs := sortBySeq_reverse_sorted vs
  have hperm : (sortBySeq vs).reverse.Perm vs :=
    (reverse_perm _).trans (perm_insertionSort _ vs)
  unfold retainKey
  rw [pairwise_reverse, kept_strict_iff hs]
  refine forall₂_congr fun o _ => ?_
  rw [nodup_seqs_iff (hs.filter _)]
  exact ((hperm.filter _).map _).nodup_iff

theorem retainKey_subperm (oldest : Option Nat) (vs : List Entry) :
    (retainKey oldest vs).Subperm vs := by
  have hperm : (sortBySeq vs).reverse.Perm vs :=
    (reverse_perm _).trans (perm_insertionSort _ vs)
  have hkept : (retainKey oldest vs).Subperm (sortBySeq vs).reverse :=
    (reverse_perm _).subperm.trans (kept_initial _ _).sublist.subperm
  exact hkept.trans hperm.subperm

/-! ## The whole merge -/

/-- The keys of the inputs, in the order the merge comes to them. -/
def mergedKeys (inputs : List SsTable) : List Key :=
  (keyGroups (·.key) (cursorTotal (inputs.map (·.records))) (inputs.map (·.records))).map (·.1)

theorem mergedKeys_ascending (inputs : List SsTable) : (mergedKeys inputs).Pairwise (· < ·) :=
  pairwise_map.mpr (mergeGroups_spec inputs).ascending

theorem inputVersions_eq_nil (h : k ∉ mergedKeys inputs) : inputVersions inputs k = [] := by
  rw [eq_nil_iff_forall_not_mem]
  intro e he
  obtain ⟨hin, rfl⟩ := mem_inputVersions.mp he
  obtain ⟨g, hg, hgk⟩ := (mergeGroups_spec inputs).complete e hin
  exact h (mem_map.mpr ⟨g, hg, hgk⟩)

/-- The output, key by key. -/
theorem mergeRecords_eq (inputs : List SsTable) (oldest : Option Nat) :
    (mergeRecords inputs oldest).1 =
      (mergedKeys inputs).flatMap fun k => retainKey oldest (inputVersions inputs k) := by
  unfold mergeRecords mergedKeys
  rw [foldl_mergeKey, flatMap_map]
  refine flatMap_congr fun g hg => ?_
  rw [group_flatten hg]

theorem key_of_mem_retainKey {e : Entry}
    (h : e ∈ retainKey oldest (inputVersions inputs k)) : e.key = k :=
  (mem_inputVersions.mp (mem_of_mem_retainKey h)).2

/-- The merge keeps or drops each copy of a record on its own. -/
theorem mergeRecords_subperm (inputs : List SsTable) (oldest : Option Nat) :
    (mergeRecords inputs oldest).1.Subperm (inputRecords inputs) := by
  have hall : ((mergedKeys inputs).flatMap fun k => inputVersions inputs k).Perm
      (inputRecords inputs) := by
    refine List.Perm.trans (List.Perm.of_eq ?_)
      (keyGroups_perm (cursors_sorted inputs) (Nat.le_refl _))
    unfold mergedKeys
    rw [flatMap_map]
    exact flatMap_congr fun g hg => (group_flatten hg).symm
  rw [mergeRecords_eq]
  refine List.Subperm.trans ?_ hall.subperm
  induction mergedKeys inputs with
  | nil => exact List.Subperm.refl _
  | cons k ks ih =>
    exact ((subperm_append_right _).mpr (retainKey_subperm oldest _)).trans
      ((subperm_append_left _).mpr ih)

theorem entryKey_lt_iff {a b : Entry} (h : a.key = b.key) :
    entryKey a < entryKey b ↔ a.seq < b.seq := by
  unfold entryKey
  rw [Prod.Lex.toLex_lt_toLex]
  simp [h]

theorem mergeRecords_strict_iff_keys (inputs : List SsTable) (oldest : Option Nat) :
    ((mergeRecords inputs oldest).1.Pairwise fun a b => entryKey a < entryKey b) ↔
      ∀ k ∈ mergedKeys inputs,
        (retainKey oldest (inputVersions inputs k)).Pairwise fun a b => a.seq < b.seq := by
  rw [mergeRecords_eq, pairwise_flatMap]
  have hone (k : Key) :
      ((retainKey oldest (inputVersions inputs k)).Pairwise fun a b => entryKey a < entryKey b) ↔
        (retainKey oldest (inputVersions inputs k)).Pairwise fun a b => a.seq < b.seq :=
    List.Pairwise.iff_of_mem fun {a b} ha hb =>
      entryKey_lt_iff ((key_of_mem_retainKey ha).trans (key_of_mem_retainKey hb).symm)
  have hcross : (mergedKeys inputs).Pairwise fun k l =>
      ∀ a ∈ retainKey oldest (inputVersions inputs k),
      ∀ b ∈ retainKey oldest (inputVersions inputs l), entryKey a < entryKey b := by
    refine (mergedKeys_ascending inputs).imp fun {k l} hkl a ha b hb => ?_
    refine Prod.Lex.toLex_lt_toLex.mpr (.inl ?_)
    rwa [key_of_mem_retainKey ha, key_of_mem_retainKey hb]
  simp only [hone]
  exact ⟨fun h => h.1, fun h => ⟨h, hcross⟩⟩

/-- No key has a sequence number twice if no record key occurs twice. -/
theorem nodup_entryKeys_iff : ∀ {es : List Entry},
    (es.map entryKey).Nodup ↔ ∀ k, ((es.filter fun e => e.key = k).map (·.seq)).Nodup := by
  intro es
  induction es with
  | nil => simp
  | cons e es ih =>
    rw [map_cons, nodup_cons, ih]
    constructor
    · rintro ⟨hnot, hall⟩ k
      by_cases hk : e.key = k
      · rw [filter_cons, if_pos (by simpa using hk), map_cons, nodup_cons]
        refine ⟨?_, hall k⟩
        intro hmem
        obtain ⟨x, hx, hxs⟩ := mem_map.mp hmem
        obtain ⟨hx, hxk⟩ := mem_filter.mp hx
        refine hnot (mem_map.mpr ⟨x, hx, ?_⟩)
        unfold entryKey
        rw [hxs, hk, of_decide_eq_true hxk]
      · rw [filter_cons, if_neg (by simpa using hk)]
        exact hall k
    · intro h
      constructor
      · intro hmem
        obtain ⟨x, hx, hxe⟩ := mem_map.mp hmem
        obtain ⟨hxk, hxs⟩ : x.key = e.key ∧ x.seq = e.seq := by simpa [entryKey] using hxe
        have hnd := h e.key
        rw [filter_cons, if_pos (by simp), map_cons, nodup_cons] at hnd
        exact hnd.1 (mem_map.mpr ⟨x, mem_filter.mpr ⟨hx, by simpa using hxk⟩, hxs⟩)
      · intro k
        have hnd := h k
        rw [filter_cons] at hnd
        split at hnd
        · rw [map_cons, nodup_cons] at hnd
          exact hnd.2
        · exact hnd

/-- **When the output is strictly increasing:** no record above the floor stands in the
inputs twice. -/
theorem mergeRecords_strict_iff (inputs : List SsTable) (oldest : Option Nat) :
    ((mergeRecords inputs oldest).1.Pairwise fun a b => entryKey a < entryKey b) ↔
      ∀ o ∈ oldest, (((inputRecords inputs).filter fun e => o < e.seq).map entryKey).Nodup := by
  rw [mergeRecords_strict_iff_keys]
  simp only [retainKey_strict_iff, nodup_entryKeys_iff]
  have hcomm (o : Nat) (k : Key) : (inputVersions inputs k).filter (fun e => o < e.seq) =
      ((inputRecords inputs).filter fun e => o < e.seq).filter fun e => e.key = k := by
    unfold inputVersions
    rw [filter_filter, filter_filter]
    refine filter_congr fun e _ => Bool.and_comm _ _
  constructor
  · intro h o ho k
    rw [← hcomm]
    by_cases hk : k ∈ mergedKeys inputs
    · exact h k hk o ho
    · rw [inputVersions_eq_nil hk]
      exact nodup_nil
  · intro h k _ o ho
    rw [hcomm]
    exact h o ho k

/-- A read of one key that the floor fits for this key finds the same version. -/
theorem best_mergeRecords {s : Nat} (hc : Coherent (inputRecords inputs))
    (hf : FloorFits oldest (inputVersions inputs k) s) :
    best (mergeRecords inputs oldest).1 k s = best (inputRecords inputs) k s := by
  have hsub : ∀ e ∈ (mergeRecords inputs oldest).1, e ∈ inputRecords inputs :=
    fun e he => (mergeRecords_subperm inputs oldest).subset he
  -- for every version the read sees in the inputs, the output shows one as new
  have hcov : ∀ v ∈ inputRecords inputs, Visible k s v →
      ∃ v' ∈ (mergeRecords inputs oldest).1, Visible k s v' ∧ v.seq ≤ v'.seq := by
    intro v hv hvis
    obtain ⟨v', hv', hle⟩ := retainKey_covers (fun e he => (mem_inputVersions.mp he).2) hf
      (mem_inputVersions.mpr ⟨hv, hvis.1⟩) hvis.2
    have hk := key_of_mem_retainKey hv'
    exact ⟨v', mem_mergeRecords.mpr (by rwa [hk]), ⟨hk, hle.2⟩, hle.1⟩
  symm
  cases hb : best (mergeRecords inputs oldest).1 k s with
  | none =>
    refine best_eq_none_iff.mpr fun v hv hvis => ?_
    obtain ⟨v', hv', hvis', _⟩ := hcov v hv hvis
    exact best_eq_none_iff.mp hb v' hv' hvis'
  | some v =>
    obtain ⟨hm, hvis, hmax⟩ := isBest_of_best hb
    refine best_eq_of_isBest hc ⟨hsub v hm, hvis, fun w hw hwvis => ?_⟩
    obtain ⟨v', hv', hvis', hle⟩ := hcov w hw hwvis
    exact hle.trans (hmax v' hv' hvis')

/--
**A merge preserves every visible read.** The output is in order and part of the inputs
copy by copy, and a read at or above the oldest live snapshot, or with none at or above
everything the key has, finds the same newest version. It is strictly ordered exactly if
no record above the floor stands in the inputs twice.
-/
theorem merge_preserves_reads (inputs : List SsTable) (oldest : Option Nat)
    (hc : Coherent (inputRecords inputs)) :
    ((mergeRecords inputs oldest).1.Pairwise fun a b => entryKey a ≤ entryKey b) ∧
    (((mergeRecords inputs oldest).1.Pairwise fun a b => entryKey a < entryKey b) ↔
      ∀ o ∈ oldest, (((inputRecords inputs).filter fun e => o < e.seq).map entryKey).Nodup) ∧
    (mergeRecords inputs oldest).1.Subperm (inputRecords inputs) ∧
    ∀ k s, (∀ o ∈ oldest, o ≤ s) →
      (oldest = none → ∀ v ∈ inputRecords inputs, v.key = k → v.seq ≤ s) →
      best (mergeRecords inputs oldest).1 k s = best (inputRecords inputs) k s := by
  refine ⟨mergeRecords_sorted inputs oldest, mergeRecords_strict_iff inputs oldest,
    mergeRecords_subperm inputs oldest, fun k s hle htop => ?_⟩
  refine best_mergeRecords hc ?_
  cases oldest with
  | some o => exact floorFits_of_le _ (hle o rfl)
  | none =>
    refine floorFits_of_top none fun v hv => ?_
    obtain ⟨hin, hk⟩ := mem_inputVersions.mp hv
    exact htop rfl v hin hk

/-- One record, in two tables. -/
def copiedTable (id : Nat) : SsTable where
  id := id
  records := [⟨[107], 5, .put [1]⟩]
  sorted := pairwise_singleton _ _

/-- **Both copies of a record above the oldest live snapshot stay,** so the output is not
strictly increasing. -/
theorem merge_keeps_both_copies :
    Coherent (inputRecords [copiedTable 1, copiedTable 2]) ∧
    (mergeRecords [copiedTable 1, copiedTable 2] (some 3)).1 =
      [⟨[107], 5, .put [1]⟩, ⟨[107], 5, .put [1]⟩] ∧
    ¬ (mergeRecords [copiedTable 1, copiedTable 2] (some 3)).1.Pairwise
      fun a b => entryKey a < entryKey b := by
  have hout : (mergeRecords [copiedTable 1, copiedTable 2] (some 3)).1 =
      [⟨[107], 5, .put [1]⟩, ⟨[107], 5, .put [1]⟩] := by decide
  refine ⟨by unfold Coherent; decide, hout, ?_⟩
  intro h
  exact lt_irrefl _ ((pairwise_cons.mp h).1 _ (mem_singleton.mpr rfl))

/-- With the snapshot at the record, one copy is left and it is the one that is read. -/
theorem merge_preserves_reads_copied :
    best (mergeRecords [copiedTable 1, copiedTable 2] (some 5)).1 [107] 9 =
      some ⟨[107], 5, .put [1]⟩ ∧
    ((mergeRecords [copiedTable 1, copiedTable 2] (some 5)).1.Pairwise
      fun a b => entryKey a < entryKey b) := by
  have hc : Coherent (inputRecords [copiedTable 1, copiedTable 2]) := by unfold Coherent; decide
  obtain ⟨_, hstrict, _, hread⟩ :=
    merge_preserves_reads [copiedTable 1, copiedTable 2] (some 5) hc
  have hbest : best (inputRecords [copiedTable 1, copiedTable 2]) [107] 9 =
      some ⟨[107], 5, .put [1]⟩ := by decide
  refine ⟨(hread [107] 9 (by simp) nofun).trans hbest, hstrict.mpr ?_⟩
  intro o ho
  cases ho
  decide

end RubixDb.Proof
