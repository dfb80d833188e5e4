import RubixDb.Proof.ScanSources

/-!
# The merge of a range scan

The iterator merges its sources as `Lib.keyGroups` merges lists. `Merging` relates the two:
what a source still has to give is its entry on the heap and what it has left behind it, and
the heap holds the front of every source that is not exhausted. A turn of the loop in `next`
is then a round of `keyGroups`: it takes the least key off every source that has it.

A key's row is decided by the first source with a visible version, which is how a point read
decides it. So a scan yields, in ascending order, exactly the keys a point read finds.
-/

namespace RubixDb.Proof

open Lib Sst Lsm List

variable {it : RangeScanIter} {s : RangeSource} {entry first : HeapEntry} {tail : List HeapEntry}
    {pend : RangeSource → List Entry}

/-! ## The heap -/

/-- The order in which the heap is popped. -/
abbrev Ranked (heap : List HeapEntry) : Prop := heap.Pairwise fun a b => a.rank ≤ b.rank

theorem heapPush_perm (entry : HeapEntry) : ∀ heap : List HeapEntry,
    (heapPush entry heap).Perm (entry :: heap) := by
  intro heap
  induction heap with
  | nil => exact .refl _
  | cons top heap ih =>
    rw [heapPush]
    split
    · exact .refl _
    · exact (ih.cons top).trans (.swap entry top heap)

theorem ranked_heapPush (entry : HeapEntry) : ∀ {heap : List HeapEntry}, Ranked heap →
    Ranked (heapPush entry heap) := by
  intro heap
  induction heap with
  | nil => exact fun _ => pairwise_singleton _ _
  | cons top heap ih =>
    intro h
    obtain ⟨htop, hrest⟩ := pairwise_cons.mp h
    rw [heapPush]
    split
    · rename_i hle
      refine pairwise_cons.mpr ⟨fun x hx => ?_, h⟩
      rcases mem_cons.mp hx with rfl | hx
      · exact hle
      · exact hle.trans (htop x hx)
    · rename_i hnot
      refine pairwise_cons.mpr ⟨fun x hx => ?_, ih hrest⟩
      rcases mem_cons.mp ((heapPush_perm entry heap).mem_iff.mp hx) with rfl | hx
      · exact (not_le.mp hnot).le
      · exact htop x hx

theorem key_le_of_rank_le {a b : HeapEntry} (h : a.rank ≤ b.rank) : a.key ≤ b.key := by
  rcases Prod.Lex.toLex_le_toLex.mp h with hlt | heq
  · exact hlt.le
  · exact heq.1.le

theorem recency_le_of_rank_le {a b : HeapEntry} (h : a.rank ≤ b.rank) (hkey : a.key = b.key) :
    a.recency ≤ b.recency := by
  rcases Prod.Lex.toLex_le_toLex.mp h with hlt | heq
  · exact absurd hkey (ne_of_lt hlt)
  · exact heq.2

/-- Sources are gone through in the order of their recency. -/
theorem sources_sorted (view : ReadView) : SortedBy view.recency view.sources := by
  have hrange : ∀ (n : Nat), (List.range n).Pairwise (· < ·) := fun n => pairwise_lt_range
  refine pairwise_cons.mpr ⟨?_, pairwise_append.mpr ⟨?_, ?_, ?_⟩⟩
  · intro b hb
    rcases mem_append.mp hb with hb | hb
    · obtain ⟨i, _, rfl⟩ := mem_map.mp hb
      simp only [ReadView.recency]
      omega
    · obtain ⟨i, _, rfl⟩ := mem_map.mp hb
      simp only [ReadView.recency]
      omega
  · exact pairwise_map.mpr ((hrange _).imp fun h => by simp only [ReadView.recency]; omega)
  · exact pairwise_map.mpr ((hrange _).imp fun h => by simp only [ReadView.recency]; omega)
  · intro a ha b hb
    obtain ⟨i, hi, rfl⟩ := mem_map.mp ha
    obtain ⟨j, _, rfl⟩ := mem_map.mp hb
    have := mem_range.mp hi
    simp only [ReadView.recency]
    omega

theorem sources_nodup (view : ReadView) : view.sources.Nodup :=
  (sources_sorted view).imp fun h heq => by subst heq; exact lt_irrefl _ h

/-! ## Asking sources -/

section Refill

variable {crc : Bytes → UInt32}

/-- The heap is no part of where a source stands. -/
theorem left_with_heap {l : List Entry} (heap : List HeapEntry)
    (h : Left crc it s l) : Left crc { it with heap := heap } s l := by
  cases s <;> exact h

/-- What `refill` does: every source that was asked and is not exhausted has put its front on
the heap, the others are where they were. -/
structure Refilled (crc : Bytes → UInt32) (want : RangeSource → Bool) (ss : List RangeSource)
    (left : RangeSource → List Entry) (it it' : RangeScanIter) : Prop where
  readView : it'.readView = it.readView
  asOfSeq : it'.asOfSeq = it.asOfSeq
  heapInitialized : it'.heapInitialized = it.heapInitialized
  errored : it'.errored = it.errored
  ranked : Ranked it'.heap
  heap : it'.heap.Perm (it.heap ++ (ss.filter want).filterMap fun s =>
    frontEntry (it.readView.recency s) s (left s))
  asked : ∀ s ∈ ss, want s = true → Left crc it' s (restGroup (left s))
  others : ∀ s l, ¬(s ∈ ss ∧ want s = true) → Left crc it s l → Left crc it' s l

/-- By induction on the sources: each is asked once, so the ones behind it still have what
they had. -/
theorem refill_left (limit : Nat) (want : RangeSource → Bool) {left : RangeSource → List Entry}
    {ss : List RangeSource} (it : RangeScanIter) (hnodup : ss.Nodup)
    (hleft : ∀ s ∈ ss, Left crc it s (left s)) (hlimit : ∀ s ∈ ss, (left s).length ≤ limit)
    (hranked : Ranked it.heap) :
    ∃ it', it.refill crc limit want ss = .ok it' ∧ Refilled crc want ss left it it' := by
  induction ss generalizing it with
  | nil =>
    refine ⟨it, rfl, rfl, rfl, rfl, rfl, hranked, ?_,
      fun s hs => absurd hs not_mem_nil, fun _ _ _ h => h⟩
    rw [filter_nil, filterMap_nil, append_nil]
  | cons s ss ih =>
    have hlimit' : ∀ x ∈ ss, (left x).length ≤ limit :=
      fun x hx => hlimit x (mem_cons_of_mem _ hx)
    obtain ⟨hfresh, hnodup⟩ := nodup_cons.mp hnodup
    have hne : ∀ x ∈ ss, s ≠ x := fun x hx heq => hfresh (heq ▸ hx)
    by_cases hwant : want s = true
    · -- an asked source puts its next group on the heap
      obtain ⟨it₁, hpeek, hleft₁, hsame⟩ := peek_left (hleft s (by simp)) (hlimit s (by simp))
      have hranked₁ : Ranked ((frontEntry (it.readView.recency s) s (left s)).elim it₁.heap
          (heapPush · it₁.heap)) := by
        rw [hsame.heap]
        cases frontEntry (it.readView.recency s) s (left s) with
        | none => exact hranked
        | some entry => exact ranked_heapPush entry hranked
      obtain ⟨it', hrefill, h⟩ := ih _ hnodup (fun x hx => left_with_heap _
        (hsame.keeps (hne x hx) (hleft x (mem_cons_of_mem _ hx)))) hlimit' hranked₁
      refine ⟨it', ?_, h.readView.trans hsame.readView, h.asOfSeq.trans hsame.asOfSeq,
        h.heapInitialized.trans hsame.heapInitialized, h.errored.trans hsame.errored, h.ranked,
        ?_, ?_, ?_⟩
      · rw [RangeScanIter.refill, if_pos hwant, hpeek]
        exact hrefill
      · have hheap := h.heap
        rw [hsame.readView, hsame.heap] at hheap
        rw [filter_cons_of_pos hwant, filterMap_cons]
        cases hfront : frontEntry (it.readView.recency s) s (left s) with
        | none =>
          rw [hfront] at hheap
          exact hheap
        | some entry =>
          rw [hfront] at hheap
          exact hheap.trans (((heapPush_perm entry it.heap).append_right _).trans
            perm_middle.symm)
      · intro x hx hx'
        rcases mem_cons.mp hx with rfl | hx
        · exact h.others x _ (fun hboth => hfresh hboth.1) (left_with_heap _ hleft₁)
        · exact h.asked x hx hx'
      · intro x l hx hxl
        have hxs : s ≠ x := fun heq => hx ⟨heq ▸ mem_cons_self, heq ▸ hwant⟩
        exact h.others x l (fun hboth => hx ⟨mem_cons_of_mem _ hboth.1, hboth.2⟩)
          (left_with_heap _ (hsame.keeps hxs hxl))
    · -- a source that is not asked stays where it is
      obtain ⟨it', hrefill, h⟩ :=
        ih _ hnodup (fun x hx => hleft x (mem_cons_of_mem _ hx)) hlimit' hranked
      refine ⟨it', ?_, h.readView, h.asOfSeq, h.heapInitialized, h.errored, h.ranked, ?_, ?_, ?_⟩
      · rw [RangeScanIter.refill, if_neg hwant]
        exact hrefill
      · rw [filter_cons_of_neg hwant]
        exact h.heap
      · intro x hx hx'
        rcases mem_cons.mp hx with rfl | hx
        · exact absurd hx' hwant
        · exact h.asked x hx hx'
      · intro x l hx hxl
        exact h.others x l (fun hboth => hx ⟨mem_cons_of_mem _ hboth.1, hboth.2⟩) hxl

end Refill

/-! ## The front of the sources -/

/-- The first version left is of this key. -/
def atKey (key : Key) : List Entry → Bool
  | [] => false
  | e :: _ => e.key = key

section Fronts

variable {key : Key} {l : List Entry}

theorem dropWhile_of_atKey (h : atKey key l = true) :
    (l.dropWhile fun e => e.key = key) = restGroup l := by
  cases l with
  | nil => rfl
  | cons e es =>
    obtain rfl : e.key = key := of_decide_eq_true h
    rfl

theorem dropWhile_of_not_atKey (h : ¬atKey key l = true) :
    (l.dropWhile fun e => e.key = key) = l := by
  cases l with
  | nil => rfl
  | cons e es => exact dropWhile_cons_of_neg (by simpa [atKey] using h)

theorem recency_frontEntry {recency : Nat}
    (h : frontEntry recency s l = some entry) : entry.recency = recency := by
  cases l with
  | nil => cases h
  | cons e es =>
    cases h
    rfl

theorem filter_ne_frontEntry (recency : Nat) (s : RangeSource) (key : Key) (l : List Entry) :
    ((frontEntry recency s l).filter fun entry => entry.key ≠ key) =
      if atKey key l then none else frontEntry recency s l := by
  cases l with
  | nil => simp [frontEntry]
  | cons e es =>
    by_cases hkey : e.key = key
    · simp [frontEntry, atKey, Option.filter, hkey]
    · simp [frontEntry, atKey, Option.filter, hkey]

/-- The group popped off the heap decides as the sources do, each with its versions of the key. -/
theorem findSome_group (recency : RangeSource → Nat) (pend : RangeSource → List Entry) (key : Key)
    (asOf : Nat) (ss : List RangeSource) :
    ((ss.filterMap fun s => frontEntry (recency s) s (pend s)).filter
      fun entry => entry.key = key).findSome? (fun entry => newestVisible asOf entry.versions) =
    (ss.map fun s => (pend s).takeWhile fun e => e.key = key).findSome?
      fun es => newestVisible asOf (es.map version) := by
  induction ss with
  | nil => rfl
  | cons s ss ih =>
    rw [map_cons, findSome?_cons, ← ih, filterMap_cons]
    cases hpend : pend s with
    | nil => rfl
    | cons e es =>
      dsimp only [frontEntry]
      by_cases hkey : e.key = key
      · subst hkey
        rw [filter_cons_of_pos (by simp)]
        rfl
      · rw [filter_cons_of_neg (by simpa using hkey),
          takeWhile_cons_of_neg (by simpa using hkey)]
        rfl

end Fronts

/-! ## A turn of the loop -/

/-- The fronts of the sources, as they are on the heap. -/
def fronts (view : ReadView) (pend : RangeSource → List Entry) : List HeapEntry :=
  view.sources.filterMap fun s => frontEntry (view.recency s) s (pend s)

/-- **The iterator merges these lists**: `pend s` is what source `s` has still to give, its
front on the heap included. -/
structure Merging (crc : Bytes → UInt32) (view : ReadView) (asOf : Nat) (it : RangeScanIter)
    (pend : RangeSource → List Entry) : Prop where
  readView : it.readView = view
  asOfSeq : it.asOfSeq = asOf
  heapInitialized : it.heapInitialized = true
  errored : it.errored = false
  left : ∀ s ∈ view.sources, Left crc it s (restGroup (pend s))
  ascend : ∀ s ∈ view.sources, KeysAscend (pend s)
  ranked : Ranked it.heap
  heap : it.heap.Perm (fronts view pend)

section Turn

variable {crc : Bytes → UInt32} {view : ReadView} {asOf : Nat}

theorem mem_fronts : entry ∈ fronts view pend ↔
    ∃ s ∈ view.sources, frontEntry (view.recency s) s (pend s) = some entry :=
  mem_filterMap

/-- The entry on the heap of a source that has something to give. -/
theorem frontEntry_mem_fronts (hs : s ∈ view.sources) {e : Entry} {es : List Entry}
    (h : pend s = e :: es) :
    ⟨e.key, view.recency s, s, (headGroup (e :: es)).map version⟩ ∈ fronts view pend :=
  mem_fronts.mpr ⟨s, hs, by rw [h]; rfl⟩

theorem source_of_mem_fronts (h : entry ∈ fronts view pend) :
    entry.source ∈ view.sources ∧ entry.recency = view.recency entry.source ∧
      ∃ e es, pend entry.source = e :: es ∧ e.key = entry.key ∧
        entry = ⟨e.key, view.recency entry.source, entry.source,
          (headGroup (e :: es)).map version⟩ := by
  obtain ⟨s, hs, hfront⟩ := mem_fronts.mp h
  cases hpend : pend s with
  | nil =>
    rw [hpend] at hfront
    cases hfront
  | cons e es =>
    rw [hpend] at hfront
    cases hfront
    exact ⟨hs, rfl, e, es, hpend, rfl, rfl⟩

/-- No source has a key before that of the top of the heap. -/
theorem Merging.top_le (h : Merging crc view asOf it pend) (hheap : it.heap = first :: tail) :
    ∀ s ∈ view.sources, ∀ e ∈ pend s, first.key ≤ e.key := by
  intro s hs e he
  cases hpend : pend s with
  | nil =>
    rw [hpend] at he
    cases he
  | cons e₀ es =>
    have hmem := h.heap.mem_iff.mpr (frontEntry_mem_fronts hs hpend)
    have hfirst : first.key ≤ e₀.key := by
      rw [hheap] at hmem
      rcases mem_cons.mp hmem with heq | hmem
      · rw [← heq]
      · have hranked := h.ranked
        rw [hheap] at hranked
        exact key_le_of_rank_le ((pairwise_cons.mp hranked).1 _ hmem)
    have hasc := h.ascend s hs
    rw [hpend] at he hasc
    rcases mem_cons.mp he with rfl | he
    · exact hfirst
    · exact hfirst.trans ((pairwise_cons.mp hasc).1 e he)

/-- The key on top of the heap is the least of all sources. -/
theorem Merging.minKey_eq (h : Merging crc view asOf it pend) (hheap : it.heap = first :: tail) :
    minKey (fun e : Entry => e.key) (view.sources.map pend) = some first.key := by
  have hsorted : CursorsSorted (fun e : Entry => e.key) (view.sources.map pend) := by
    intro c hc
    obtain ⟨s, hs, rfl⟩ := mem_map.mp hc
    exact h.ascend s hs
  have hle := h.top_le hheap
  have hfirst : first ∈ fronts view pend := by
    rw [← h.heap.mem_iff, hheap]
    exact mem_cons_self
  obtain ⟨hs, _, e, es, hpend, hkey, _⟩ := source_of_mem_fronts hfirst
  have hmem : e ∈ (view.sources.map pend).flatten :=
    mem_flatten.mpr ⟨_, mem_map.mpr ⟨_, hs, rfl⟩, by rw [hpend]; exact mem_cons_self⟩
  cases hmin : minKey (fun e : Entry => e.key) (view.sources.map pend) with
  | none =>
    rw [minKey_eq_none_iff.mp hmin] at hmem
    cases hmem
  | some k =>
    obtain ⟨⟨c, hc, x, hx, hxk⟩, hk⟩ := minKey_spec hsorted hmin
    obtain ⟨s, hs', rfl⟩ := mem_map.mp hc
    have hkle : k ≤ first.key := hkey ▸ hk e hmem
    have hlek : first.key ≤ k := hxk ▸ hle s hs' x (mem_of_mem_head? hx)
    rw [le_antisymm hkle hlek]

/-- What is popped off the heap: the fronts at the least key, most recent source first. -/
theorem Merging.popped (h : Merging crc view asOf it pend) (hheap : it.heap = first :: tail) :
    (it.heap.takeWhile fun entry => entry.key = first.key) =
        (fronts view pend).filter (fun entry => entry.key = first.key) ∧
      (it.heap.dropWhile fun entry => entry.key = first.key).Perm
        ((fronts view pend).filter fun entry => entry.key ≠ first.key) := by
  have hasc : it.heap.Pairwise fun a b => a.key ≤ b.key := h.ranked.imp key_le_of_rank_le
  have hle : ∀ entry ∈ it.heap, first.key ≤ entry.key := by
    intro entry hentry
    obtain ⟨hs, _, e, es, hpend, hkey, _⟩ := source_of_mem_fronts (h.heap.mem_iff.mp hentry)
    rw [← hkey]
    exact h.top_le hheap _ hs e (by rw [hpend]; exact mem_cons_self)
  have htake : (it.heap.takeWhile fun entry => entry.key = first.key) =
      it.heap.filter fun entry => entry.key = first.key := by
    convert (takeWhile_dropWhile_eq (fun entry : HeapEntry => entry.key) hasc hle).1
  have hdrop : (it.heap.dropWhile fun entry => entry.key = first.key) =
      it.heap.filter fun entry => entry.key ≠ first.key := by
    convert (takeWhile_dropWhile_eq (fun entry : HeapEntry => entry.key) hasc hle).2
  refine ⟨?_, hdrop ▸ h.heap.filter _⟩
  rw [htake]
  -- both lists are in the order of recency, which tells the fronts apart
  refine @List.Perm.eq_of_pairwise _ (fun a b : HeapEntry => a.recency ≤ b.recency) _ _ ?_ ?_ ?_
    (h.heap.filter _)
  · intro a b ha hb hab hba
    obtain ⟨hsa, hra, ea, esa, hpa, _, heqa⟩ :=
      source_of_mem_fronts (h.heap.mem_iff.mp (mem_filter.mp ha).1)
    obtain ⟨hsb, hrb, eb, esb, hpb, _, heqb⟩ := source_of_mem_fronts (mem_filter.mp hb).1
    have hsource : a.source = b.source :=
      (sources_sorted view).eq_of_key_eq hsa hsb (by rw [← hra, ← hrb]; exact le_antisymm hab hba)
    rw [hsource, hpb] at hpa
    obtain ⟨rfl, rfl⟩ := List.cons.inj hpa
    rw [heqa, heqb, hsource]
  · refine (h.ranked.filter _).imp_of_mem fun {a b} ha hb hrank => ?_
    have hka : a.key = first.key := of_decide_eq_true (mem_filter.mp ha).2
    have hkb : b.key = first.key := of_decide_eq_true (mem_filter.mp hb).2
    exact recency_le_of_rank_le hrank (hka.trans hkb.symm)
  · refine List.Pairwise.filter _ (pairwise_filterMap.mpr ?_)
    refine (sources_sorted view).imp fun {s s'} hlt a ha b hb => ?_
    rw [recency_frontEntry ha, recency_frontEntry hb]
    exact hlt.le

/-- The sources taken from are those that stand at the key. -/
theorem Merging.taken (h : Merging crc view asOf it pend) (hheap : it.heap = first :: tail)
    (hs : s ∈ view.sources) :
    ((it.heap.takeWhile fun entry => entry.key = first.key).map (·.source)).contains s =
      atKey first.key (pend s) := by
  rw [(h.popped hheap).1, Bool.eq_iff_iff, contains_iff_mem, mem_map]
  constructor
  · rintro ⟨entry, hentry, rfl⟩
    obtain ⟨hentry, hkey⟩ := mem_filter.mp hentry
    obtain ⟨_, _, e, es, hpend, hkey', _⟩ := source_of_mem_fronts hentry
    rw [hpend, atKey, hkey']
    exact hkey
  · intro hat
    cases hpend : pend s with
    | nil =>
      rw [hpend] at hat
      cases hat
    | cons e es =>
      rw [hpend] at hat
      exact ⟨_, mem_filter.mpr ⟨frontEntry_mem_fronts hs hpend, hat⟩, rfl⟩

/-- The value a group of versions, source by source, resolves to. -/
def winner (asOf : Nat) (group : List (List Entry)) : Option (Nat × MemtableValue) :=
  group.findSome? fun es => newestVisible asOf (es.map version)

/-- What the sources have put on the heap after a turn. -/
theorem fronts_dropWhile (key : Key) {want : RangeSource → Bool}
    (hwant : ∀ s ∈ view.sources, want s = atKey key (pend s)) :
    (((fronts view pend).filter fun entry => entry.key ≠ key) ++
      (view.sources.filter want).filterMap fun s =>
        frontEntry (view.recency s) s (restGroup (pend s))).Perm
      (fronts view fun s => (pend s).dropWhile fun e => e.key = key) := by
  have hstay : ((fronts view pend).filter fun entry => entry.key ≠ key) =
      (view.sources.filter fun s => !want s).filterMap fun s =>
        frontEntry (view.recency s) s ((pend s).dropWhile fun e => e.key = key) := by
    rw [fronts, filter_filterMap, filterMap_filter]
    refine filterMap_congr fun s hs => ?_
    rw [filter_ne_frontEntry, hwant s hs]
    by_cases hat : atKey key (pend s) = true
    · rw [hat]
      rfl
    · rw [if_neg hat, dropWhile_of_not_atKey hat, if_pos (by simpa using hat)]
  have hmove : ((view.sources.filter want).filterMap fun s =>
        frontEntry (view.recency s) s (restGroup (pend s))) =
      (view.sources.filter want).filterMap fun s =>
        frontEntry (view.recency s) s ((pend s).dropWhile fun e => e.key = key) := by
    refine filterMap_congr fun s hs => ?_
    obtain ⟨hs, hs'⟩ := mem_filter.mp hs
    rw [dropWhile_of_atKey (hwant s hs ▸ hs')]
  rw [hstay, hmove, ← filterMap_append]
  exact (perm_append_comm.trans (filter_append_perm want _)).filterMap _

/-- **A turn of the loop** takes the least key off every source and resolves it. -/
theorem Merging.turn (h : Merging crc view asOf it pend) (hheap : it.heap = first :: tail)
    (limit : Nat) (hlimit : ∀ s ∈ view.sources, (pend s).length ≤ limit) :
    ∃ it', Merging crc view asOf it' (fun s => (pend s).dropWhile fun e => e.key = first.key) ∧
      ∀ fuel, it.resume crc limit (fuel + 1) =
        ((winner asOf (view.sources.map fun s =>
            (pend s).takeWhile fun e => e.key = first.key)).bind
          fun v => resolve v.2).elim (it'.resume crc limit fuel)
          fun v => .ok (some (.ok (first.key, v)), it') := by
  obtain ⟨hgroup, hdropped⟩ := h.popped hheap
  -- the sources popped are those that stand at the key
  have hwant : ∀ s ∈ view.sources,
      ((it.heap.takeWhile fun entry => entry.key = first.key).map (·.source)).contains s =
        atKey first.key (pend s) := fun s hs => h.taken hheap hs
  have hrest : ∀ s ∈ view.sources, (restGroup (pend s)).length ≤ limit := by
    intro s hs
    rw [← drop_headGroup, length_drop]
    have := hlimit s hs
    omega
  obtain ⟨it', hrefill, hR⟩ := refill_left limit
    ((it.heap.takeWhile fun entry => entry.key = first.key).map (·.source)).contains
    { it with heap := it.heap.dropWhile fun entry => entry.key = first.key }
    (sources_nodup view) (fun s hs => left_with_heap _ (h.left s hs)) hrest
    (h.ranked.sublist (dropWhile_sublist _))
  refine ⟨it', ⟨?_, ?_, ?_, ?_, ?_, ?_, ?_, ?_⟩, ?_⟩
  · exact hR.readView.trans h.readView
  · exact hR.asOfSeq.trans h.asOfSeq
  · exact hR.heapInitialized.trans h.heapInitialized
  · exact hR.errored.trans h.errored
  · intro s hs
    by_cases hat : atKey first.key (pend s) = true
    · rw [dropWhile_of_atKey hat]
      exact hR.asked s hs (by rw [hwant s hs, hat])
    · rw [dropWhile_of_not_atKey hat]
      refine hR.others s _ (fun hboth => hat ?_) (left_with_heap _ (h.left s hs))
      rw [← hwant s hs]
      exact hboth.2
  · exact fun s hs => (h.ascend s hs).sublist (dropWhile_sublist _)
  · exact hR.ranked
  · have hheap' := hR.heap
    rw [h.readView] at hheap'
    exact hheap'.trans ((hdropped.append_right _).trans (fronts_dropWhile first.key hwant))
  · -- the winner is handed out unless it is a tombstone
    intro fuel
    rw [winner, ← findSome_group view.recency pend, ← fronts, ← hgroup]
    rw [← h.readView, hheap] at hrefill
    rw [RangeScanIter.resume, hheap]
    dsimp only
    rw [hrefill, h.asOfSeq]
    cases (List.takeWhile (fun entry => decide (entry.key = first.key)) (first :: tail)).findSome?
        fun entry => newestVisible asOf entry.versions with
    | none => rfl
    | some found =>
      obtain ⟨seq, value⟩ := found
      cases value <;> rfl

end Turn

/-! ## Whole scans -/

/-- The row a key resolves to, if it has one. -/
def liveRow (asOf : Nat) (group : Key × List (List Entry)) : Option (Key × Bytes) :=
  ((winner asOf group.2).bind fun v => resolve v.2).map fun v => (group.1, v)

/-- The rows of the lists: their keys in order, each resolved. -/
def mergedRows (asOf n : Nat) (cs : List (List Entry)) : List (Key × Bytes) :=
  (keyGroups (fun e : Entry => e.key) n cs).filterMap (liveRow asOf)

/-- A round of `keyGroups`; the iterator compares keys as byte strings. -/
theorem keyGroups_front {cs : List (List Entry)} {key : Key} {n : Nat}
    (h : minKey (fun e : Entry => e.key) cs = some key) :
    keyGroups (fun e : Entry => e.key) (n + 1) cs =
      (key, cs.map fun c => c.takeWhile fun e => e.key = key) ::
        keyGroups (fun e : Entry => e.key) n
          (cs.map fun c => c.dropWhile fun e => e.key = key) := by
  rw [keyGroups, h]
  congr!

theorem mergedRows_of_empty {cs : List (List Entry)} (h : cs.flatten = []) (asOf n : Nat) :
    mergedRows asOf n cs = [] := by
  cases n with
  | zero => rfl
  | succ n => rw [mergedRows, keyGroups, minKey_eq_none_iff.mpr h]; rfl

section Run

variable {crc : Bytes → UInt32} {view : ReadView} {asOf limit : Nat}

/-- The versions the sources have still to give. -/
abbrev toGive (view : ReadView) (pend : RangeSource → List Entry) : List (List Entry) :=
  view.sources.map pend

theorem Merging.total_lt (h : Merging crc view asOf it pend) (hheap : it.heap = first :: tail) :
    cursorTotal (toGive view fun s => (pend s).dropWhile fun e => e.key = first.key) <
      cursorTotal (toGive view pend) := by
  have hmin := h.minKey_eq hheap
  have hle := h.top_le hheap
  have hsorted : CursorsSorted (fun e : Entry => e.key) (toGive view pend) := by
    intro c hc
    obtain ⟨s, hs, rfl⟩ := mem_map.mp hc
    exact h.ascend s hs
  have hdrop : (toGive view fun s => (pend s).dropWhile fun e => e.key = first.key) =
      dropKey (fun e : Entry => e.key) first.key (toGive view pend) := by
    rw [dropKey, toGive, map_map]
    refine map_congr_left fun s hs => ?_
    rw [Function.comp_apply]
    convert (takeWhile_dropWhile_eq (fun e : Entry => e.key) (h.ascend s hs) (hle s hs)).2
  obtain ⟨⟨c, hc, e, he, hkey⟩, _⟩ := minKey_spec hsorted hmin
  rw [hdrop]
  exact cursorTotal_dropKey_lt (mem_flatten.mpr ⟨c, hc, mem_of_mem_head? he⟩) hkey

theorem Merging.toGive_nil (h : Merging crc view asOf it pend)
    (hheap : it.heap = []) : (toGive view pend).flatten = [] := by
  have hnone : ∀ s ∈ view.sources, pend s = [] := by
    intro s hs
    cases hpend : pend s with
    | nil => rfl
    | cons e es =>
      have hmem := h.heap.mem_iff.mpr (frontEntry_mem_fronts hs hpend)
      rw [hheap] at hmem
      cases hmem
  rw [flatten_eq_nil_iff]
  intro c hc
  obtain ⟨s, hs, rfl⟩ := mem_map.mp hc
  exact hnone s hs

theorem length_le_cursorTotal {α : Type} {cs : List (List α)} {c : List α} (h : c ∈ cs) :
    c.length ≤ cursorTotal cs :=
  le_sum_of_mem (mem_map_of_mem h)

/-- **A call of `next`** yields the first of the rows left, or ends when there is none. By
induction on what the sources have to give: a turn that resolves to no row goes round again. -/
theorem Merging.resume_yields {n fuel : Nat} {it : RangeScanIter} {pend : RangeSource → List Entry}
    (h : Merging crc view asOf it pend) (htotal : cursorTotal (toGive view pend) ≤ n)
    (hfuel : n < fuel) (hlimit : n ≤ limit) :
    (∃ it', it.resume crc limit fuel = .ok (none, it') ∧
      mergedRows asOf n (toGive view pend) = []) ∨
    ∃ row it' pend' n', it.resume crc limit fuel = .ok (some (.ok row), it') ∧
      Merging crc view asOf it' pend' ∧ cursorTotal (toGive view pend') ≤ n' ∧ n' < n ∧
      mergedRows asOf n (toGive view pend) = row :: mergedRows asOf n' (toGive view pend') := by
  induction n generalizing fuel it pend with
  | zero =>
    obtain ⟨fuel, rfl⟩ := Nat.exists_eq_succ_of_ne_zero (Nat.ne_of_gt hfuel)
    cases hheap : it.heap with
    | nil => exact .inl ⟨it, by rw [RangeScanIter.resume, hheap], rfl⟩
    | cons first tail =>
      have hlt := h.total_lt hheap
      omega
  | succ n ih =>
    obtain ⟨fuel, rfl⟩ := Nat.exists_eq_succ_of_ne_zero (Nat.ne_of_gt (Nat.zero_lt_of_lt hfuel))
    cases hheap : it.heap with
    | nil =>
      refine .inl ⟨it, by rw [RangeScanIter.resume, hheap], ?_⟩
      exact mergedRows_of_empty (h.toGive_nil hheap) _ _
    | cons first tail =>
      have hlt := h.total_lt hheap
      obtain ⟨it', hmerging, hturn⟩ := h.turn hheap limit fun s hs =>
        (length_le_cursorTotal (mem_map_of_mem hs)).trans (htotal.trans hlimit)
      have hrows : mergedRows asOf (n + 1) (toGive view pend) =
          (liveRow asOf (first.key, (toGive view pend).map fun c =>
            c.takeWhile fun e => e.key = first.key)).toList ++
          mergedRows asOf n (toGive view fun s =>
            (pend s).dropWhile fun e => e.key = first.key) := by
        rw [mergedRows, keyGroups_front (h.minKey_eq hheap), filterMap_cons, mergedRows, toGive,
          map_map, map_map]
        cases liveRow asOf _ <;> rfl
      rw [hrows, hturn fuel, liveRow, map_map]
      simp only [Function.comp_def]
      cases (winner asOf (view.sources.map
          fun s => (pend s).takeWhile fun e => e.key = first.key)).bind fun v => resolve v.2 with
      | none =>
        -- nothing to yield under this key
        rcases ih hmerging (by omega) (Nat.lt_of_succ_lt_succ hfuel) (by omega) with
          hend | ⟨row, it'', pend', n', hresume, hmerging', htotal', hlt', hrows'⟩
        · exact .inl hend
        · exact .inr ⟨row, it'', pend', n', hresume, hmerging', htotal', by omega, hrows'⟩
      | some v =>
        exact .inr ⟨(first.key, v), it', _, n, rfl, hmerging, by omega, by omega, rfl⟩

/-- The iterator yields exactly these rows and ends. -/
inductive IterYields (crc : Bytes → UInt32) (limit : Nat) :
    RangeScanIter → List (Key × Bytes) → Prop where
  | stop {it it' : RangeScanIter} : it.next crc limit = .ok (none, it') →
      IterYields crc limit it []
  | more {it it' : RangeScanIter} {row : Key × Bytes} {rows : List (Key × Bytes)} :
      it.next crc limit = .ok (some (.ok row), it') → IterYields crc limit it' rows →
      IterYields crc limit it (row :: rows)

theorem Merging.next_eq
    (h : Merging crc view asOf it pend) : it.next crc limit = it.resume crc limit limit := by
  rw [RangeScanIter.next, h.errored, h.heapInitialized]
  rfl

/-- **A whole scan** yields the merged rows of its sources. -/
theorem Merging.yields : ∀ {n : Nat} {it : RangeScanIter} {pend : RangeSource → List Entry},
    Merging crc view asOf it pend → cursorTotal (toGive view pend) ≤ n → n < limit →
    IterYields crc limit it (mergedRows asOf n (toGive view pend)) := by
  intro n
  induction n using Nat.strongRecOn with
  | ind n ih =>
    intro it pend h htotal hlimit
    rcases h.resume_yields htotal hlimit hlimit.le with
      ⟨it', hresume, hrows⟩ | ⟨row, it', pend', n', hresume, hmerging, htotal', hlt, hrows⟩
    · rw [hrows]
      exact .stop (h.next_eq.trans hresume)
    · rw [hrows]
      exact .more (h.next_eq.trans hresume) (ih n' hlt hmerging htotal' (by omega))

end Run

end RubixDb.Proof
