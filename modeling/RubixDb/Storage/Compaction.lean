import RubixDb.Lib.KeyGroups
import RubixDb.Storage.MemTable

/-!
# SSTables and the compaction merge

An SSTable is its records, in `(key, seq)` order; the block index and the bloom
filter of `src/sstable` only decide which blocks a lookup reads. `merge` is
`src/compaction/mod.rs`: for every key it gathers the versions of all inputs, sorts
them by sequence number and lets `retain_versions` drop the old ones: the newest
version always stays, and older ones stay down to the first at or below the oldest
live snapshot. With no live snapshot only the newest stays.

Two facts carry every later argument. `merge_subset`: the output invents nothing.
`merge_covers`: whatever a read that the snapshot floor fits sees in an input, the
output still shows it a version at least as new.
-/

namespace RubixDb

open Lib List

variable {oldest : Option Nat} {vs : List Entry} {s : Nat} {e : Entry} {k : Key}

/-- A published table: its id and its records. -/
structure SsTable where
  id : Nat
  records : List Entry
  sorted : records.Pairwise fun a b => entryKey a ≤ entryKey b
deriving DecidableEq

namespace SsTable

/-- `min_seq`/`max_seq` of the footer; zero for an empty table. -/
def minSeq (t : SsTable) : Nat := (t.records.map (·.seq)).min?.getD 0

def maxSeq (t : SsTable) : Nat := (t.records.map (·.seq)).max?.getD 0

/-- The version of `key` with the highest sequence number at or below `asOf`. -/
def getVersioned (t : SsTable) (key : Key) (asOf : Nat) : Option Entry :=
  best t.records key asOf

end SsTable

variable {inputs : List SsTable}

/-- `sstable::write_from_memtable`: every entry of the frozen MemTable, in order. -/
def writeFromMemtable (m : MemTable) (id : Nat) : SsTable where
  id := id
  records := m.map
  sorted := m.sorted.imp fun h => h.le

structure MergeStats where
  recordsRead : Nat := 0
  recordsRetained : Nat := 0
  tombstonesDropped : Nat := 0
  versionsDropped : Nat := 0
deriving DecidableEq, Repr

/-- The `keep` flags of the versions older than the newest, newest of them first. -/
def keepOlder (oldest : Option Nat) : Bool → List Entry → List Bool
  | _, [] => []
  | true, _ :: es => false :: keepOlder oldest true es
  | false, e :: es => true :: keepOlder oldest (oldest.elim false fun o => e.seq ≤ o) es

/-- The `keep` flags, newest version first. -/
def keepFlags (oldest : Option Nat) : List Entry → List Bool
  | [] => []
  | e :: es => true :: keepOlder oldest (oldest.elim true fun o => e.seq ≤ o) es

/-- One turn of the loop that moves the kept versions out and counts the rest. -/
def retainOne (acc : List Entry × MergeStats) (ek : Entry × Bool) : List Entry × MergeStats :=
  if ek.2 then
    (acc.1 ++ [ek.1], { acc.2 with recordsRetained := acc.2.recordsRetained + 1 })
  else
    match ek.1.value with
    | .tombstone => (acc.1, { acc.2 with tombstonesDropped := acc.2.tombstonesDropped + 1 })
    | .put _ => (acc.1, { acc.2 with versionsDropped := acc.2.versionsDropped + 1 })

/-- `retain_versions`, over one key's versions in ascending sequence order. -/
def retainVersions (versions : List Entry) (oldest : Option Nat) (stats : MergeStats) :
    List Entry × MergeStats :=
  (versions.zip (keepFlags oldest versions.reverse).reverse).foldl retainOne ([], stats)

/-- `versions.sort_unstable_by_key(|(seq, _)| *seq)`. -/
def sortBySeq (versions : List Entry) : List Entry :=
  versions.insertionSort fun a b => a.seq ≤ b.seq

/-- One key of the merge: its versions from every cursor, sorted, then retained. -/
def mergeKey (oldest : Option Nat) (acc : List Entry × MergeStats)
    (g : Key × List (List Entry)) : List Entry × MergeStats :=
  let versions := g.2.flatten
  let stats := { acc.2 with recordsRead := acc.2.recordsRead + versions.length }
  let (retained, stats) := retainVersions (sortBySeq versions) oldest stats
  (acc.1 ++ retained, stats)

/-- `compaction::merge`, drained: the output records in order and the counters. -/
def mergeRecords (inputs : List SsTable) (oldest : Option Nat) : List Entry × MergeStats :=
  let cursors := inputs.map (·.records)
  (keyGroups (·.key) (cursorTotal cursors) cursors).foldl (mergeKey oldest) ([], {})

/-! ## What `retain_versions` keeps -/

/-- The versions older than the newest that stay, newest first. -/
def keptOlder (oldest : Option Nat) : Bool → List Entry → List Entry
  | _, [] => []
  | true, _ => []
  | false, e :: es => e :: keptOlder oldest (oldest.elim false fun o => e.seq ≤ o) es

/-- The versions that stay, newest first. -/
def kept (oldest : Option Nat) : List Entry → List Entry
  | [] => []
  | e :: es => e :: keptOlder oldest (oldest.elim true fun o => e.seq ≤ o) es

theorem foldl_retainOne (l : List (Entry × Bool)) (acc : List Entry × MergeStats) :
    (l.foldl retainOne acc).1 = acc.1 ++ (l.filter (·.2)).map (·.1) := by
  induction l generalizing acc with
  | nil => simp
  | cons x l ih =>
    rw [foldl_cons, ih]
    unfold retainOne
    by_cases hx : x.2
    · simp [hx]
    · cases x.1.value <;> simp [hx]

theorem length_keepOlder (oldest : Option Nat) :
    ∀ (b : Bool) (es : List Entry), (keepOlder oldest b es).length = es.length := by
  intro b es
  induction es generalizing b with
  | nil => cases b <;> rfl
  | cons e es ih => cases b <;> simp [keepOlder, ih]

theorem length_keepFlags (oldest : Option Nat) (es : List Entry) :
    (keepFlags oldest es).length = es.length := by
  cases es <;> simp [keepFlags, length_keepOlder]

/-- Selecting by the flags of the older versions. -/
theorem select_keepOlder (oldest : Option Nat) :
    ∀ (b : Bool) (es : List Entry),
      (((es.zip (keepOlder oldest b es)).filter (·.2)).map (·.1)) = keptOlder oldest b es := by
  intro b es
  induction es generalizing b with
  | nil => cases b <;> rfl
  | cons e es ih =>
    cases b with
    | true =>
      have hnil : keptOlder oldest true es = [] := by cases es <;> rfl
      simpa [keepOlder, keptOlder, hnil] using ih true
    | false => simp [keepOlder, keptOlder, ih]

/-- Zipping two lists backwards. -/
theorem zip_reverse {α β : Type} {as : List α} {bs : List β} (h : as.length = bs.length) :
    as.reverse.zip bs.reverse = (as.zip bs).reverse := by
  induction as generalizing bs with
  | nil => simp
  | cons a as ih =>
    cases bs with
    | nil => simp at h
    | cons b bs =>
      have hlen : as.length = bs.length := by simpa using h
      rw [reverse_cons, reverse_cons, zip_append (by simpa using hlen), ih hlen]
      simp

/-- The kept versions, in the ascending order the merge emits them. -/
theorem retainVersions_fst (versions : List Entry) (oldest : Option Nat) (stats : MergeStats) :
    (retainVersions versions oldest stats).1 = (kept oldest versions.reverse).reverse := by
  have hzip : versions.zip (keepFlags oldest versions.reverse).reverse =
      (versions.reverse.zip (keepFlags oldest versions.reverse)).reverse := by
    rw [← zip_reverse (length_keepFlags _ _).symm, reverse_reverse]
  unfold retainVersions
  rw [foldl_retainOne, hzip, filter_reverse, map_reverse, nil_append]
  congr 1
  cases versions.reverse with
  | nil => rfl
  | cons e es => simp [keepFlags, kept, select_keepOlder]

/-- What stays is an initial part of the versions taken newest first. -/
theorem keptOlder_initial (oldest : Option Nat) :
    ∀ (b : Bool) (es : List Entry), keptOlder oldest b es <+: es := by
  intro b es
  induction es generalizing b with
  | nil => cases b <;> exact prefix_refl _
  | cons e es ih =>
    cases b with
    | true => exact nil_prefix
    | false => exact cons_prefix_cons.mpr ⟨rfl, ih _⟩

theorem kept_initial (oldest : Option Nat) (es : List Entry) : kept oldest es <+: es := by
  cases es with
  | nil => exact prefix_refl _
  | cons e es => exact cons_prefix_cons.mpr ⟨rfl, keptOlder_initial _ _ _⟩

/-- A read at `s` loses nothing to a merge with this floor: a key with a version at or
below `s` and one above has the latter above the floor, so the loop does not stop there. -/
def FloorFits (oldest : Option Nat) (vs : List Entry) (s : Nat) : Prop :=
  ∀ v ∈ vs, ∀ v' ∈ vs, v.key = v'.key → v.seq ≤ s → s < v'.seq → ∃ o ∈ oldest, o < v'.seq

instance (oldest : Option Nat) (vs : List Entry) (s : Nat) : Decidable (FloorFits oldest vs s) :=
  inferInstanceAs (Decidable (∀ v ∈ vs, ∀ v' ∈ vs, _ → _ → _ → ∃ o ∈ oldest, _))

theorem FloorFits.subset {us : List Entry} (h : FloorFits oldest vs s)
    (hs : ∀ e ∈ us, e ∈ vs) : FloorFits oldest us s :=
  fun v hv v' hv' => h v (hs v hv) v' (hs v' hv')

/-- At or above the oldest live snapshot nothing is lost. -/
theorem floorFits_of_le {o : Nat} (vs : List Entry) (h : o ≤ s) : FloorFits (some o) vs s :=
  fun _ _ _ _ _ _ hlt => ⟨o, rfl, h.trans_lt hlt⟩

/-- Nor at or above everything merged. -/
theorem floorFits_of_top (oldest : Option Nat) (h : ∀ v ∈ vs, v.seq ≤ s) : FloorFits oldest vs s :=
  fun _ _ v' hv' _ _ hlt => absurd (h v' hv') (Nat.not_le.mpr hlt)

section Covers

variable {oldest : Option Nat} {k : Key} {s : Nat} {v : Entry}

/-- The newest version stays. If the read does not see it, the floor lies below it, and the
versions behind it are looked at. -/
theorem covers_cons {e : Entry} {es rest : List Entry}
    (hs : (e :: es).Pairwise fun a b => b.seq ≤ a.seq) (hk : ∀ x ∈ e :: es, x.key = k)
    (hf : FloorFits oldest (e :: es) s) (hv : v ∈ e :: es) (hvs : v.seq ≤ s)
    (hrest : v ∈ es → ∀ o, oldest = some o → ¬ e.seq ≤ o →
      ∃ v' ∈ rest, v.seq ≤ v'.seq ∧ v'.seq ≤ s) :
    ∃ v' ∈ e :: rest, v.seq ≤ v'.seq ∧ v'.seq ≤ s := by
  rcases mem_cons.mp hv with rfl | hin
  · exact ⟨v, by simp, Nat.le_refl _, hvs⟩
  · by_cases hle : e.seq ≤ s
    · exact ⟨e, by simp, (pairwise_cons.mp hs).1 v hin, hle⟩
    · have hsame : v.key = e.key := (hk v hv).trans (hk e (by simp)).symm
      obtain ⟨o, ho, hlt⟩ := hf v hv e (by simp) hsame hvs (by omega)
      obtain ⟨v', hv', hle'⟩ := hrest hin o ho (by omega)
      exact ⟨v', mem_cons_of_mem _ hv', hle'⟩

/-- Newest first, the versions down to the first one at or below the floor stay, so a
dropped version has a kept one above it that the read sees. -/
theorem keptOlder_covers {es : List Entry} (hs : es.Pairwise fun a b => b.seq ≤ a.seq)
    (hk : ∀ e ∈ es, e.key = k) (hf : FloorFits oldest es s) (hv : v ∈ es) :
    v.seq ≤ s → ∃ v' ∈ keptOlder oldest false es, v.seq ≤ v'.seq ∧ v'.seq ≤ s := by
  induction es with
  | nil => exact absurd hv (by simp)
  | cons e es ih =>
    intro hvs
    refine covers_cons hs hk hf hv hvs fun hin o ho hgo => ?_
    simpa [ho, hgo] using ih (pairwise_cons.mp hs).2 (fun x hx => hk x (mem_cons_of_mem _ hx))
      (hf.subset fun x hx => mem_cons_of_mem _ hx) hin hvs

theorem kept_covers {es : List Entry} (hs : es.Pairwise fun a b => b.seq ≤ a.seq)
    (hk : ∀ e ∈ es, e.key = k) (hf : FloorFits oldest es s) (hv : v ∈ es) (hvs : v.seq ≤ s) :
    ∃ v' ∈ kept oldest es, v.seq ≤ v'.seq ∧ v'.seq ≤ s := by
  cases es with
  | nil => exact absurd hv (by simp)
  | cons e es =>
    refine covers_cons hs hk hf hv hvs fun hin o ho hgo => ?_
    simpa [ho, hgo] using keptOlder_covers (pairwise_cons.mp hs).2
      (fun x hx => hk x (mem_cons_of_mem _ hx)) (hf.subset fun x hx => mem_cons_of_mem _ hx) hin hvs

end Covers

/-! ## One key of the merge -/

/-- What the merge emits for one key whose versions are `vs`. -/
def retainKey (oldest : Option Nat) (vs : List Entry) : List Entry :=
  (kept oldest (sortBySeq vs).reverse).reverse

theorem mem_sortBySeq : e ∈ sortBySeq vs ↔ e ∈ vs :=
  (perm_insertionSort _ vs).mem_iff

theorem sortBySeq_sorted (vs : List Entry) : (sortBySeq vs).Pairwise fun a b => a.seq ≤ b.seq :=
  pairwise_insertionSort _ vs

theorem sortBySeq_reverse_sorted (vs : List Entry) :
    (sortBySeq vs).reverse.Pairwise fun a b => b.seq ≤ a.seq :=
  pairwise_reverse.mpr (sortBySeq_sorted vs)

theorem retainKey_sorted (oldest : Option Nat) (vs : List Entry) :
    (retainKey oldest vs).Pairwise fun a b => a.seq ≤ b.seq :=
  pairwise_reverse.mpr
    ((sortBySeq_reverse_sorted vs).sublist (kept_initial _ _).sublist)

theorem mem_of_mem_retainKey (h : e ∈ retainKey oldest vs) : e ∈ vs := by
  have := (kept_initial oldest _).subset (mem_reverse.mp h)
  exact mem_sortBySeq.mp (mem_reverse.mp this)

theorem retainKey_covers (hk : ∀ e ∈ vs, e.key = k) (hf : FloorFits oldest vs s) {v : Entry}
    (hv : v ∈ vs) (hvs : v.seq ≤ s) : ∃ v' ∈ retainKey oldest vs, v.seq ≤ v'.seq ∧ v'.seq ≤ s := by
  have hmem : ∀ e ∈ (sortBySeq vs).reverse, e ∈ vs :=
    fun e he => mem_sortBySeq.mp (mem_reverse.mp he)
  obtain ⟨v', hv', hle⟩ := kept_covers (sortBySeq_reverse_sorted vs) (fun e he => hk e (hmem e he))
    (hf.subset hmem) (mem_reverse.mpr (mem_sortBySeq.mpr hv)) hvs
  exact ⟨v', mem_reverse.mpr hv', hle⟩

/-- The newest version always stays. -/
theorem retainKey_newest {v : Entry} (hv : v ∈ vs) :
    ∃ v' ∈ retainKey oldest vs, v.seq ≤ v'.seq := by
  have hs := sortBySeq_reverse_sorted vs
  have hv' : v ∈ (sortBySeq vs).reverse := mem_reverse.mpr (mem_sortBySeq.mpr hv)
  unfold retainKey
  cases h : (sortBySeq vs).reverse with
  | nil => rw [h] at hv'; exact absurd hv' (by simp)
  | cons e es =>
    rw [h] at hs hv'
    refine ⟨e, by simp [kept], ?_⟩
    rcases mem_cons.mp hv' with rfl | hv'
    · exact Nat.le_refl _
    · exact (pairwise_cons.mp hs).1 v hv'

/-! ## The whole merge -/

theorem foldl_mergeKey (oldest : Option Nat) (gs : List (Key × List (List Entry)))
    (acc : List Entry × MergeStats) :
    (gs.foldl (mergeKey oldest) acc).1 =
      acc.1 ++ gs.flatMap fun g => retainKey oldest g.2.flatten := by
  induction gs generalizing acc with
  | nil => simp
  | cons g gs ih =>
    rw [foldl_cons, ih]
    simp only [mergeKey, retainVersions_fst, flatMap_cons, append_assoc]
    rfl

/-- All records of the inputs. -/
def inputRecords (inputs : List SsTable) : List Entry := (inputs.map (·.records)).flatten

theorem mem_inputRecords : e ∈ inputRecords inputs ↔ ∃ t ∈ inputs, e ∈ t.records := by
  simp [inputRecords, mem_flatten]

/-- The versions of one key across the inputs. -/
def inputVersions (inputs : List SsTable) (k : Key) : List Entry :=
  (inputRecords inputs).filter fun e => e.key = k

theorem mem_inputVersions : e ∈ inputVersions inputs k ↔ e ∈ inputRecords inputs ∧ e.key = k := by
  simp [inputVersions, mem_filter]

theorem key_le_of_entryKey_le {a b : Entry} (h : entryKey a ≤ entryKey b) : a.key ≤ b.key := by
  rcases Prod.Lex.toLex_le_toLex.mp h with h | h
  · exact h.le
  · exact h.1.le

theorem cursors_sorted (inputs : List SsTable) :
    CursorsSorted (fun e : Entry => e.key) (inputs.map (·.records)) := by
  intro c hc
  obtain ⟨t, _, rfl⟩ := mem_map.mp hc
  exact t.sorted.imp key_le_of_entryKey_le

theorem mergeGroups_spec (inputs : List SsTable) :
    GroupsSpec (fun e : Entry => e.key) (inputs.map (·.records))
      (keyGroups (·.key) (cursorTotal (inputs.map (·.records))) (inputs.map (·.records))) :=
  keyGroups_spec (cursors_sorted inputs) (Nat.le_refl _)

/-- The groups of one key, put together, are the key's versions across the inputs. -/
theorem group_flatten {g : Key × List (List Entry)}
    (hg : g ∈ keyGroups (·.key) (cursorTotal (inputs.map (·.records))) (inputs.map (·.records))) :
    g.2.flatten = inputVersions inputs g.1 := by
  rw [(mergeGroups_spec inputs).group g hg, inputVersions, inputRecords, filter_flatten]
  refine congrArg List.flatten (map_congr_left fun c _ => filter_congr fun e _ => ?_)
  exact decide_eq_decide.mpr Iff.rfl

/-- **Record by record:** the output holds what each key's retention leaves. -/
theorem mem_mergeRecords :
    e ∈ (mergeRecords inputs oldest).1 ↔ e ∈ retainKey oldest (inputVersions inputs e.key) := by
  unfold mergeRecords
  rw [foldl_mergeKey, nil_append, mem_flatMap]
  constructor
  · rintro ⟨g, hg, he⟩
    rw [group_flatten hg] at he
    have hk := (mem_inputVersions.mp (mem_of_mem_retainKey he)).2
    rwa [hk]
  · intro he
    obtain ⟨hin, _⟩ := mem_inputVersions.mp (mem_of_mem_retainKey he)
    obtain ⟨g, hg, hgk⟩ := (mergeGroups_spec inputs).complete e hin
    exact ⟨g, hg, by rwa [group_flatten hg, hgk]⟩

theorem mergeRecords_sorted (inputs : List SsTable) (oldest : Option Nat) :
    (mergeRecords inputs oldest).1.Pairwise fun a b => entryKey a ≤ entryKey b := by
  unfold mergeRecords
  rw [foldl_mergeKey, nil_append, flatMap_def, pairwise_flatten]
  have hkey : ∀ g ∈ keyGroups (·.key) (cursorTotal (inputs.map (·.records)))
      (inputs.map (·.records)), ∀ e ∈ retainKey oldest g.2.flatten, e.key = g.1 := by
    intro g hg e he
    rw [group_flatten hg] at he
    exact (mem_inputVersions.mp (mem_of_mem_retainKey he)).2
  constructor
  · intro l hl
    obtain ⟨g, hg, rfl⟩ := mem_map.mp hl
    refine (retainKey_sorted oldest _).imp_of_mem fun {a b} ha hb hab => ?_
    exact Prod.Lex.toLex_le_toLex.mpr (.inr ⟨(hkey g hg a ha).trans (hkey g hg b hb).symm, hab⟩)
  · rw [pairwise_map]
    refine (mergeGroups_spec inputs).ascending.imp_of_mem fun {g h} hg hh hlt a ha b hb => ?_
    refine Prod.Lex.toLex_le_toLex.mpr (.inl ?_)
    show a.key < b.key
    rwa [hkey g hg a ha, hkey h hh b hb]

/-- The table a compaction cycle writes. -/
def mergeTable (inputs : List SsTable) (oldest : Option Nat) (id : Nat) : SsTable where
  id := id
  records := (mergeRecords inputs oldest).1
  sorted := mergeRecords_sorted inputs oldest

variable {inputs : List SsTable} {oldest : Option Nat} {id : Nat}

/-- The output invents nothing. -/
theorem merge_subset (h : e ∈ (mergeTable inputs oldest id).records) : e ∈ inputRecords inputs :=
  (mem_inputVersions.mp (mem_of_mem_retainKey (mem_mergeRecords.mp h))).1

/-- **Reads that the floor fits lose nothing:** for every input version they see, the
output has one of the same key that is at least as new and that they see too. -/
theorem merge_covers (hf : FloorFits oldest (inputRecords inputs) s) :
    Covers s (mergeTable inputs oldest id).records (inputRecords inputs) := by
  intro v hv hvs
  have hf' : FloorFits oldest (inputVersions inputs v.key) s :=
    hf.subset fun e he => (mem_inputVersions.mp he).1
  obtain ⟨v', hv', hle⟩ := retainKey_covers (fun e he => (mem_inputVersions.mp he).2) hf'
    (mem_inputVersions.mpr ⟨hv, rfl⟩) hvs
  have hk := (mem_inputVersions.mp (mem_of_mem_retainKey hv')).2
  exact ⟨v', mem_mergeRecords.mpr (by rwa [hk]), ⟨hk, hle.2⟩, hle.1⟩

/-- The newest version of every key stays, whatever the floor. -/
theorem merge_keeps_newest {v : Entry} (hv : v ∈ inputRecords inputs) :
    ∃ v' ∈ (mergeTable inputs oldest id).records, v'.key = v.key ∧ v.seq ≤ v'.seq := by
  obtain ⟨v', hv', hle⟩ :=
    @retainKey_newest oldest _ _ (mem_inputVersions.mpr ⟨hv, rfl⟩)
  have hk := (mem_inputVersions.mp (mem_of_mem_retainKey hv')).2
  exact ⟨v', mem_mergeRecords.mpr (by rwa [hk]), hk, hle⟩

/-- The output is as new as its inputs. -/
theorem merge_newer {u : List Entry} (h : Newer (inputRecords inputs) u) :
    Newer (mergeTable inputs oldest id).records u := by
  rintro e he ⟨x, hx, hxk⟩
  obtain ⟨v, hv, hvk, hle⟩ := h e he ⟨x, merge_subset hx, hxk⟩
  obtain ⟨v', hv', hk, hle'⟩ := @merge_keeps_newest inputs oldest id v hv
  exact ⟨v', hv', hk.trans hvk, hle.trans hle'⟩

end RubixDb
