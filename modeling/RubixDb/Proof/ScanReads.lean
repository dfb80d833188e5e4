import RubixDb.Proof.ScanMerge
import RubixDb.Proof.SstRoundTrip

/-!
# Range scans against point reads

A point read asks the sources one by one and stops at the first that holds a visible version;
a scan resolves each key by the same rule over the versions its merge has grouped. Over the
same sources a scan therefore yields, in ascending order, the keys in its bounds for which
the point read finds a live value, each with that value.
-/

namespace RubixDb.Proof

open Lib Sst Lsm List

/-! ## The newest visible version -/

variable {es : List Entry} {cs : List (List Entry)}

/-- The versions so far and the one kept of them. -/
def KeepsMax (vs : List (Nat × MemtableValue)) (best : Option (Nat × MemtableValue)) : Prop :=
  (∀ v ∈ best, v ∈ vs) ∧ ∀ w ∈ vs, ∃ v ∈ best, w.1 ≤ v.1

theorem maxBySeq_keeps (vs : List (Nat × MemtableValue)) : KeepsMax vs (maxBySeq vs) := by
  -- the fold over the rest, with what it has kept so far
  have hrun : ∀ (rest done : List (Nat × MemtableValue)) (best : Option (Nat × MemtableValue)),
      KeepsMax done best → KeepsMax (done ++ rest)
        (rest.foldl (fun best v => if best.all (·.1 ≤ v.1) then some v else best) best) := by
    intro rest
    induction rest with
    | nil => intro done best h; rwa [append_nil]
    | cons v rest ih =>
      intro done best h
      rw [foldl_cons, append_cons]
      refine ih (done ++ [v]) _ ?_
      obtain ⟨hmem, hmax⟩ := h
      split_ifs with hall
      · refine ⟨?_, ?_⟩
        · intro x hx
          obtain rfl : v = x := Option.some.inj hx
          simp
        · intro w hw
          refine ⟨v, rfl, ?_⟩
          rcases mem_append.mp hw with hw | hw
          · obtain ⟨b, hb, hle⟩ := hmax w hw
            obtain rfl : best = some b := hb
            exact hle.trans (of_decide_eq_true hall)
          · rw [mem_singleton.mp hw]
      · refine ⟨fun x hx => mem_append_left _ (hmem x hx), ?_⟩
        intro w hw
        rcases mem_append.mp hw with hw | hw
        · exact hmax w hw
        · cases best with
          | none => exact absurd rfl hall
          | some b =>
            refine ⟨b, rfl, ?_⟩
            rw [mem_singleton.mp hw]
            have hlt : ¬b.1 ≤ v.1 := by simpa using hall
            omega
  exact hrun vs [] none ⟨by simp, by simp⟩

/-- **The newest visible version of a key**, as a point read finds it. -/
theorem newestVisible_filter (hc : Coherent es) (key : Key) (asOf : Nat) :
    newestVisible asOf ((es.filter fun e => e.key = key).map version) =
      (best es key asOf).map version := by
  have hvis : ∀ v, v ∈ (((es.filter fun e => e.key = key).map version).filter
      fun v => v.1 ≤ asOf) ↔ ∃ e ∈ es, Visible key asOf e ∧ version e = v := by
    intro v
    rw [mem_filter, mem_map]
    constructor
    · rintro ⟨⟨e, he, rfl⟩, hle⟩
      obtain ⟨he, hkey⟩ := mem_filter.mp he
      exact ⟨e, he, ⟨of_decide_eq_true hkey, of_decide_eq_true hle⟩, rfl⟩
    · rintro ⟨e, he, hv, rfl⟩
      exact ⟨⟨e, mem_filter.mpr ⟨he, decide_eq_true hv.1⟩, rfl⟩, decide_eq_true hv.2⟩
  obtain ⟨hmem, hmax⟩ := maxBySeq_keeps
    (((es.filter fun e => e.key = key).map version).filter fun v => v.1 ≤ asOf)
  unfold newestVisible
  cases hbest : best es key asOf with
  | none =>
    cases hnewest : maxBySeq (((es.filter fun e => e.key = key).map version).filter
        fun v => v.1 ≤ asOf) with
    | none => rfl
    | some v =>
      obtain ⟨e, he, hv, _⟩ := (hvis v).mp (hmem v hnewest)
      exact absurd hv (best_eq_none_iff.mp hbest e he)
  | some e =>
    obtain ⟨he, hv, hle⟩ := isBest_of_best hbest
    obtain ⟨v, hnewest, hseq⟩ := hmax (version e) ((hvis _).mpr ⟨e, he, hv, rfl⟩)
    obtain ⟨e', he', hv', rfl⟩ := (hvis v).mp (hmem v hnewest)
    have heq : e'.seq = e.seq := Nat.le_antisymm (hle e' he' hv') hseq
    rw [hc e' he' e he (hv'.1.trans hv.1.symm) heq] at hnewest
    exact hnewest

/-! ## Rows and point reads -/

/-- The rule of a group is the first hit among the lists it was taken from. -/
theorem winner_filter (hc : ∀ c ∈ cs, Coherent c) (key : Key) (asOf : Nat) :
    winner asOf (cs.map fun c => c.filter fun e => e.key = key) =
      (firstHit cs key asOf).map version := by
  unfold winner firstHit
  induction cs with
  | nil => rfl
  | cons c cs ih =>
    rw [map_cons, findSome?_cons, findSome?_cons,
      newestVisible_filter (hc c (by simp))]
    cases best c key asOf with
    | none => exact ih fun x hx => hc x (mem_cons_of_mem _ hx)
    | some e => rfl

/-- What a point read over these lists finds. -/
def liveValue (cs : List (List Entry)) (key : Key) (asOf : Nat) : Option Bytes :=
  (firstHit cs key asOf).bind fun e => resolve e.value

theorem liveRow_group (hc : ∀ c ∈ cs, Coherent c) (key : Key) (asOf : Nat) :
    liveRow asOf (key, cs.map fun c => c.filter fun e => e.key = key) =
      (liveValue cs key asOf).map fun v => (key, v) := by
  rw [liveRow, winner_filter hc, Option.bind_map]
  rfl

/-- **The merged rows** are in ascending order and are what point reads find. -/
theorem mergedRows_spec (asOf : Nat) {n : Nat} (hsorted : CursorsSorted (fun e : Entry => e.key) cs)
    (hc : ∀ c ∈ cs, Coherent c) (hn : cursorTotal cs ≤ n) :
    (mergedRows asOf n cs).Pairwise (fun a b => a.1 < b.1) ∧
      ∀ key v, (key, v) ∈ mergedRows asOf n cs ↔ liveValue cs key asOf = some v := by
  have hgroups := keyGroups_spec hsorted hn
  have hrow : ∀ g ∈ keyGroups (fun e : Entry => e.key) n cs,
      liveRow asOf g = (liveValue cs g.1 asOf).map fun v => (g.1, v) := by
    intro g hg
    have hgroup : g = (g.1, cs.map fun c => c.filter fun e => e.key = g.1) := by
      have hsnd := hgroups.group g hg
      rw [Prod.ext_iff]
      refine ⟨rfl, hsnd.trans ?_⟩
      congr!
    rw [hgroup]
    exact liveRow_group hc g.1 asOf
  constructor
  · refine pairwise_filterMap.mpr (hgroups.ascending.imp_of_mem fun {g h} hg hh hlt => ?_)
    intro a ha b hb
    obtain ⟨_, _, rfl⟩ := Option.map_eq_some_iff.mp ha
    obtain ⟨_, _, rfl⟩ := Option.map_eq_some_iff.mp hb
    exact hlt
  · intro key v
    rw [mergedRows, mem_filterMap]
    constructor
    · rintro ⟨g, hg, hlive⟩
      rw [hrow g hg] at hlive
      obtain ⟨v', hv', heq⟩ := Option.map_eq_some_iff.mp hlive
      obtain ⟨rfl, rfl⟩ := Prod.mk.inj heq
      exact hv'
    · intro hlive
      -- a key with a live value is held by some list, so the merge comes by it
      obtain ⟨e, hhit, _⟩ := Option.bind_eq_some_iff.mp hlive
      obtain ⟨c, hcmem, hbest⟩ := exists_of_findSome?_eq_some hhit
      obtain ⟨he, hvis, _⟩ := isBest_of_best hbest
      obtain ⟨g, hg, hkey⟩ := hgroups.complete e (mem_flatten.mpr ⟨c, hcmem, he⟩)
      have hgkey : g.1 = key := hkey.trans hvis.1
      refine ⟨g, hg, ?_⟩
      rw [hrow g hg, hgkey, hlive]
      rfl

/-! ## Point reads over the sources -/

section Sources

variable {crc : Bytes → UInt32} {xxh64 : Bytes → Nat → UInt64} {tables : List (List Entry)}
    {limit : Nat} {it it' : RangeScanIter} {e : EngineError}

/-- The tables hold these records, keys ascending; one that is there twice, as a merge can
leave it, is the same both times. -/
abbrev TablesHold (crc : Bytes → UInt32) (xxh64 : Bytes → Nat → UInt64) (sstables : List Table)
    (tables : List (List Entry)) : Prop :=
  List.Forall₂ (fun t records => Stores crc t xxh64 records ∧ Coherent records)
    sstables tables

theorem getFromTables_eq {sstables : List Table} (h : TablesHold crc xxh64 sstables tables)
    (key : Key) (asOf : Nat) :
    getFromTables crc xxh64 key asOf sstables = .ok (liveValue tables key asOf) := by
  induction h with
  | nil => rfl
  | @cons t records sstables tables hstores _ ih =>
    rw [getFromTables, hstores.1.getVersioned_eq, ih]
    unfold liveValue firstHit
    rw [findSome?_cons]
    cases best records key asOf <;> rfl

/-- The versions of the sources, in the order they are asked. -/
def sourceLists (src : Sources) (tables : List (List Entry)) : List (List Entry) :=
  src.active.map :: (src.immutables.map (·.map) ++ tables)

theorem getAsOf_eq {src : Sources} (h : TablesHold crc xxh64 src.sstables tables) (key : Key)
    (asOf : Nat) :
    src.getAsOf crc xxh64 key asOf = .ok (liveValue (sourceLists src tables) key asOf) := by
  have himm : (src.immutables.findSome? fun m => m.getAsOf key asOf) =
      (src.immutables.map (·.map)).findSome? fun es => best es key asOf := by
    rw [findSome?_map]
    congr 1
    funext m
    exact MemTable.getAsOf_eq_best m key asOf
  rw [Sources.getAsOf, MemTable.getAsOf_eq_best, himm, getFromTables_eq h, liveValue, liveValue,
    firstHit, firstHit, sourceLists, findSome?_cons, findSome?_append]
  cases best src.active.map key asOf with
  | some e => rfl
  | none => cases (src.immutables.map (·.map)).findSome? fun es => best es key asOf <;> rfl

/-! ## Lists cut to the bounds -/

/-- Leaving out versions of other keys does not change the answer. -/
theorem best_filter {key : Key} {asOf : Nat} {keep : Entry → Bool}
    (hkeep : ∀ e : Entry, e.key = key → keep e = true) (es : List Entry) :
    best (es.filter keep) key asOf = best es key asOf := by
  have hfold : ∀ (es : List Entry) (acc : Option Entry),
      (es.filter keep).foldl (pickNewer key asOf) acc = es.foldl (pickNewer key asOf) acc := by
    intro es
    induction es with
    | nil => intro acc; rfl
    | cons e es ih =>
      intro acc
      by_cases hk : keep e = true
      · rw [filter_cons_of_pos hk, foldl_cons, foldl_cons, ih]
      · have hsame : pickNewer key asOf acc e = acc :=
          if_neg fun hvis => hk (hkeep e hvis.1)
        rw [filter_cons_of_neg hk, foldl_cons, hsame, ih]
  exact hfold es none

/-- Bounds take keys away and change no value. -/
theorem liveValue_inBounds (cs : List (List Entry)) (start stop : Bound Key) (key : Key)
    (asOf : Nat) (v : Bytes) :
    liveValue (cs.map fun es => es.filter (inBounds start stop)) key asOf = some v ↔
      start.admitsStart key ∧ stop.admitsEnd key ∧ liveValue cs key asOf = some v := by
  have hcases : liveValue (cs.map fun es => es.filter (inBounds start stop)) key asOf =
      if start.admitsStart key ∧ stop.admitsEnd key then liveValue cs key asOf else none := by
    unfold liveValue firstHit
    rw [findSome?_map]
    by_cases hin : start.admitsStart key ∧ stop.admitsEnd key
    · rw [if_pos hin]
      congr 2
      funext es
      exact best_filter (fun e he => decide_eq_true (he.symm ▸ hin)) es
    · rw [if_neg hin]
      have hnone : (cs.findSome? ((fun es => best es key asOf) ∘
          fun es => es.filter (inBounds start stop))) = none := by
        rw [findSome?_eq_none_iff]
        intro es _
        refine best_eq_none_iff.mpr fun e he hvis => hin ?_
        rw [← hvis.1]
        exact of_decide_eq_true (mem_filter.mp he).2
      rw [hnone]
      rfl
  rw [hcases]
  by_cases hin : start.admitsStart key ∧ stop.admitsEnd key
  · rw [if_pos hin]
    exact ⟨fun h => ⟨hin.1, hin.2, h⟩, fun h => h.2.2⟩
  · rw [if_neg hin]
    exact iff_of_false (by simp) fun h => hin ⟨h.1, h.2.1⟩

/-! ## The start of a scan -/

/-- What each source has to give a scan between these bounds. -/
def startLists (src : Sources) (tables : List (List Entry)) (start stop : Bound Key) :
    RangeSource → List Entry
  | .active => src.active.map.filter (inBounds start stop)
  | .immutable idx => ((src.immutables[idx]?.map (·.map)).getD []).filter (inBounds start stop)
  | .ssTable idx => (tables[idx]?.getD []).filter (inBounds start stop)

/-- The view captured when the bounds do not rule everything out. -/
def fullView (src : Sources) (start stop : Bound Key) : ReadView :=
  ⟨src.active.range start stop, src.immutables, src.sstables⟩

variable {src : Sources} {start stop : Bound Key}

theorem map_range_getD {α : Type} (l : List α) (f : Option α → List Entry) :
    ((List.range l.length).map fun idx => f l[idx]?) = l.map fun a => f (some a) := by
  refine ext_getElem (by simp) fun i hi _ => ?_
  have hlt : i < l.length := by simpa using hi
  simp [getElem?_eq_getElem hlt]

theorem toGive_startLists (start stop : Bound Key) (h : TablesHold crc xxh64 src.sstables tables) :
    toGive (fullView src start stop) (startLists src tables start stop) =
      (sourceLists src tables).map fun es => es.filter (inBounds start stop) := by
  have hlen : src.sstables.length = tables.length := h.length_eq
  rw [toGive, ReadView.sources, sourceLists, map_cons, map_cons, map_append,
    map_append, map_map, map_map]
  congr 2
  · rw [map_map]
    exact map_range_getD src.immutables fun m =>
      ((m.map (·.map)).getD []).filter (inBounds start stop)
  · rw [fullView, hlen]
    exact map_range_getD tables fun es => (es.getD []).filter (inBounds start stop)

/-- Every source of a fresh scan has its records between the bounds before it. -/
theorem left_new (hactive : SeqsFit src.active.map) (himm : ∀ m ∈ src.immutables, SeqsFit m.map)
    (htables : TablesHold crc xxh64 src.sstables tables)
    (hbounds : rangeIsDefinitelyEmpty start stop = false) (asOf : Nat) {s : RangeSource}
    (hs : s ∈ (fullView src start stop).sources) :
    Left crc (.new (fullView src start stop) start stop asOf) s
      (startLists src tables start stop s) := by
  cases s with
  | active =>
    show (src.active.range start stop).drop 0 = _
    rw [range_eq_filter hactive]
    rfl
  | immutable idx =>
    have hidx : idx < src.immutables.length := by
      simpa [ReadView.sources, fullView] using hs
    have hget : src.immutables[idx]? = some src.immutables[idx] := getElem?_eq_getElem hidx
    have hfit := himm _ (getElem_mem hidx)
    refine ⟨src.immutables[idx], start, hget, ?_, hfit, ?_⟩
    · show (src.immutables.map fun _ => some start)[idx]? = _
      rw [getElem?_map, hget]
      rfl
    · show tableRange src.immutables[idx] start stop = _
      rw [tableRange, rangePanics_of_not_empty hbounds,
        range_eq_filter hfit, startLists, hget]
      rfl
  -- a table is read lazily, by an iterator that has read nothing yet
  | ssTable idx =>
    have hidx : idx < src.sstables.length := by
      simpa [ReadView.sources, fullView] using hs
    have hidx' : idx < tables.length := htables.length_eq ▸ hidx
    have hget : src.sstables[idx]? = some src.sstables[idx] := getElem?_eq_getElem hidx
    have hstores : Stores crc src.sstables[idx] xxh64 tables[idx] :=
      ((forall₂_iff_get.mp htables).2 idx hidx hidx').1
    refine ⟨src.sstables[idx], hget, .inr ⟨⟨src.sstables[idx].rangeScan start stop, none⟩, ?_, ?_⟩⟩
    · show (src.sstables.map fun t => some (Peekable.mk (t.rangeScan start stop) none))[idx]? = _
      rw [getElem?_map, hget]
      rfl
    · rw [startLists, getElem?_eq_getElem hidx']
      exact hstores.remaining start stop

/-- A fresh scan is set up by its first call. -/
theorem IterYields.of_next_eq {rows : List (Key × Bytes)}
    (heq : it.next crc limit = it'.next crc limit) (h : IterYields crc limit it' rows) :
    IterYields crc limit it rows := by
  cases h with
  | stop hnext => exact .stop (heq.trans hnext)
  | more hnext hrest => exact .more (heq.trans hnext) hrest

theorem next_first (herrored : it.errored = false) (hinit : it.heapInitialized = false)
    (hrefill : RangeScanIter.refill crc limit (fun _ => true) it.readView.sources
      { it with heapInitialized := true } = .ok it') :
    it.next crc limit = it'.resume crc limit limit := by
  rw [RangeScanIter.next, if_neg (by rw [herrored]; decide), if_neg (by rw [hinit]; decide)]
  dsimp only
  rw [hrefill]

/-- **The first call fills the heap**, and the scan goes on from there. -/
theorem new_yields (view : ReadView) (pend : RangeSource → List Entry) (asOf limit : Nat)
    (hleft : ∀ s ∈ view.sources, Left crc (.new view start stop asOf) s (pend s))
    (hasc : ∀ s ∈ view.sources, KeysAscend (pend s))
    (hlimit : cursorTotal (toGive view pend) < limit) :
    IterYields crc limit (.new view start stop asOf)
      (mergedRows asOf (cursorTotal (toGive view pend)) (toGive view pend)) := by
  have hlen : ∀ s ∈ view.sources, (pend s).length ≤ limit := fun s hs =>
    (length_le_cursorTotal (mem_map_of_mem hs)).trans hlimit.le
  obtain ⟨it', hrefill, hR⟩ := refill_left limit (fun _ => true)
    { RangeScanIter.new view start stop asOf with heapInitialized := true }
    (sources_nodup view) (fun s hs => by cases s <;> exact hleft _ hs) hlen List.Pairwise.nil
  have hmerging : Merging crc view asOf it' pend := by
    refine ⟨hR.readView, hR.asOfSeq, hR.heapInitialized, hR.errored,
      fun s hs => hR.asked s hs rfl, hasc, hR.ranked, ?_⟩
    have hheap := hR.heap
    rwa [filter_true] at hheap
  refine IterYields.of_next_eq ?_ (hmerging.yields (Nat.le_refl _) hlimit)
  rw [hmerging.next_eq]
  exact next_first rfl rfl hrefill

/-! ## Errors -/

theorem errored_of_resume {fuel : Nat} {it : RangeScanIter}
    (h : it.resume crc limit fuel = .ok (some (.error e), it')) : it'.errored = true := by
  induction fuel generalizing it with
  | zero => cases h
  | succ fuel ih =>
    rw [RangeScanIter.resume] at h
    split at h
    · cases h
    · dsimp only at h
      split at h
      · split at h
        · cases h
        · exact ih h
      · cases h
        rfl
      · cases h

/-- An error is yielded by an iterator that will not look at its sources again. -/
theorem errored_of_next
    (h : it.next crc limit = .ok (some (.error e), it')) : it'.errored = true := by
  rw [RangeScanIter.next] at h
  split at h
  · cases h
  · split at h
    · exact errored_of_resume h
    · dsimp only at h
      split at h
      · exact errored_of_resume h
      · cases h
        rfl
      · cases h

/-! ## The scan and the point reads -/

theorem not_inBounds_of_empty (h : rangeIsDefinitelyEmpty start stop = true) (key : Key) :
    ¬(start.admitsStart key ∧ stop.admitsEnd key) := by
  rintro ⟨hstart, hstop⟩
  cases start with
  | unbounded => cases h
  | included s =>
    cases stop with
    | unbounded => cases h
    | included e => exact absurd (hstart.trans hstop) (not_le.mpr (of_decide_eq_true h))
    | excluded e =>
      exact absurd (lt_of_le_of_lt hstart hstop) (not_lt.mpr (of_decide_eq_true h))
  | excluded s =>
    cases stop with
    | unbounded => cases h
    | included e =>
      exact absurd (lt_of_lt_of_le hstart hstop) (not_lt.mpr (of_decide_eq_true h))
    | excluded e => exact absurd (hstart.trans hstop) (not_lt.mpr (of_decide_eq_true h))

theorem coherent_of_sorted (h : SortedBy entryKey es) : Coherent es :=
  fun _ hv _ hw hk hs => h.eq_of_key_eq hv hw (MemTable.entryKey_eq_iff.mpr ⟨hk, hs⟩)

/-- Every source is in order of keys. -/
theorem sourceLists_ascend (h : TablesHold crc xxh64 src.sstables tables) :
    ∀ es ∈ sourceLists src tables, KeysAscend es ∧ Coherent es := by
  intro es hes
  rcases mem_cons.mp hes with rfl | hes
  · exact ⟨keysAscend_of_sorted src.active.sorted, coherent_of_sorted src.active.sorted⟩
  · rcases mem_append.mp hes with hes | hes
    · obtain ⟨m, _, rfl⟩ := mem_map.mp hes
      exact ⟨keysAscend_of_sorted m.sorted, coherent_of_sorted m.sorted⟩
    · obtain ⟨i, hi, rfl⟩ := getElem_of_mem hes
      obtain ⟨hstores, hcoherent⟩ := (forall₂_iff_get.mp h).2 i (h.length_eq.symm ▸ hi) hi
      exact ⟨hstores.ascend, hcoherent⟩

theorem rangeScan_empty (hempty : rangeIsDefinitelyEmpty start stop = true) (asOf : Nat) :
    src.rangeScan start stop asOf = .ok (.new ⟨[], [], []⟩ start stop asOf) := by
  rw [Sources.rangeScan, Sources.captureReadView, if_pos hempty]
  rfl

theorem rangeScan_full (hempty : rangeIsDefinitelyEmpty start stop = false) (asOf : Nat) :
    src.rangeScan start stop asOf = .ok (.new (fullView src start stop) start stop asOf) := by
  rw [Sources.rangeScan, Sources.captureReadView, if_neg (by rw [hempty]; decide), tableRange,
    rangePanics_of_not_empty hempty]
  rfl

/-- **A range scan yields what point reads find**: keys strictly ascending, exactly those in
the bounds under which a point read at the same sequence number returns a value, with that
value. And an iterator that has yielded an error yields nothing more. -/
theorem range_scan_yields_point_reads (crc : Bytes → UInt32) (xxh64 : Bytes → Nat → UInt64) :
    (∀ (src : Sources) (tables : List (List Entry)) (start stop : Bound Key) (asOf : Nat),
      SeqsFit src.active.map → (∀ m ∈ src.immutables, SeqsFit m.map) →
      TablesHold crc xxh64 src.sstables tables →
      ∃ it rows, src.rangeScan start stop asOf = .ok it ∧
        (∃ bound, ∀ limit, bound ≤ limit → IterYields crc limit it rows) ∧
        rows.Pairwise (fun a b => a.1 < b.1) ∧
        ∀ key v, (key, v) ∈ rows ↔ start.admitsStart key ∧ stop.admitsEnd key ∧
          src.getAsOf crc xxh64 key asOf = .ok (some v)) ∧
    ∀ (it it' : RangeScanIter) (limit : Nat) (e : EngineError),
      it.next crc limit = .ok (some (.error e), it') →
      ∀ limit', it'.next crc limit' = .ok (none, it') := by
  refine ⟨?_, fun it it' limit e h limit' => if_pos (errored_of_next h)⟩
  intro src tables start stop asOf hactive himm htables
  cases hempty : rangeIsDefinitelyEmpty start stop with
  | true =>
    have hyields : ∀ limit, 1 ≤ limit →
        IterYields crc limit (.new ⟨[], [], []⟩ start stop asOf) [] := by
      intro limit hlimit
      have hrun : IterYields crc limit (.new ⟨[], [], []⟩ start stop asOf) _ :=
        new_yields ⟨[], [], []⟩ (fun _ => []) asOf limit
        (fun s hs => by obtain rfl := mem_singleton.mp hs; rfl)
        (fun _ _ => List.Pairwise.nil) hlimit
      rwa [mergedRows_of_empty rfl] at hrun
    refine ⟨_, [], rangeScan_empty hempty asOf, ⟨1, hyields⟩, List.Pairwise.nil, ?_⟩
    intro key v
    exact iff_of_false not_mem_nil fun h => not_inBounds_of_empty hempty key ⟨h.1, h.2.1⟩
  | false =>
    have hlists := toGive_startLists start stop htables
    -- the bounds only thin the lists out
    have hgive : ∀ es ∈ toGive (fullView src start stop) (startLists src tables start stop),
        KeysAscend es ∧ Coherent es := by
      rw [hlists]
      intro es hes
      obtain ⟨l, hl, rfl⟩ := mem_map.mp hes
      obtain ⟨hascend, hcoherent⟩ := sourceLists_ascend htables l hl
      exact ⟨List.Pairwise.filter _ hascend,
        hcoherent.subset fun e he => (mem_filter.mp he).1⟩
    obtain ⟨hasc, hrows⟩ := mergedRows_spec asOf (fun es hes => (hgive es hes).1)
      (fun es hes => (hgive es hes).2) (Nat.le_refl _)
    refine ⟨_, _, rangeScan_full hempty asOf,
      ⟨cursorTotal (toGive (fullView src start stop) (startLists src tables start stop)) + 1,
        fun limit hlimit => ?_⟩, hasc, ?_⟩
    · exact new_yields _ _ _ _ (fun s hs => left_new hactive himm htables hempty asOf hs)
        (fun s hs => (hgive _ (mem_map_of_mem hs)).1)
        (Nat.lt_of_succ_le hlimit)
    · intro key v
      rw [hrows, hlists, liveValue_inBounds, getAsOf_eq htables, Except.ok.injEq]

end Sources

/-- `k` was put and flushed to an SSTable, and then deleted; `a` has just been put. -/
def threeSources : Sources where
  active := (MemTable.new 4096).put [0x61] 3 [0x78]
  immutables := [(MemTable.new 4096).delete [0x6B] 2]
  sstables := [(imageOf plainEnv ⟨4096, 10⟩ 1 oneRecord 1 1).table crc32c]

theorem tablesHold_threeSources :
    TablesHold crc32c plainEnv.xxh64 threeSources.sstables [oneRecord] := by
  have hsorted : SortedBy entryKey oneRecord := pairwise_singleton _ _
  have himage : (imageOf plainEnv ⟨4096, 10⟩ 1 oneRecord 1 1).Fits crc32c :=
    fits_imageOf plainEnv ⟨4096, 10⟩ 1 hsorted storable_oneRecord (withinFormat_oneRecord 10)
      (by decide) (by decide)
  exact .cons ⟨stores_imageOf plainEnv ⟨4096, 10⟩ 1 himage, coherent_of_sorted hsorted⟩ .nil

theorem three_sources_scan : ∃ it rows,
    threeSources.rangeScan .unbounded .unbounded 7 = .ok it ∧
      (∃ bound, ∀ limit, bound ≤ limit → IterYields crc32c limit it rows) ∧
      rows.Pairwise (fun a b => a.1 < b.1) ∧
      ∀ key v, (key, v) ∈ rows ↔ Bound.unbounded.admitsStart key ∧ Bound.unbounded.admitsEnd key ∧
        threeSources.getAsOf crc32c plainEnv.xxh64 key 7 = .ok (some v) :=
  (range_scan_yields_point_reads crc32c plainEnv.xxh64).1 threeSources [oneRecord] .unbounded
    .unbounded 7 (by unfold SeqsFit; decide) (by unfold SeqsFit; decide) tablesHold_threeSources

end RubixDb.Proof
