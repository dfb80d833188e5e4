import RubixDb.Proof.SstLookup
import RubixDb.Storage.RangeScan

/-!
# The sources of a range scan

Whatever the kind of a source, it has a list of versions left, keys ascending, and asking it
for its next key takes the versions of the first key off that list. `Left` says what is left:
of the active MemTable the rest of the captured range, of a frozen one what a fresh range from
its resume bound gives, of an SSTable what its cursor has still to yield. `peek_left` is the
one fact the merge needs of them.
-/

namespace RubixDb.Proof

open Lib Sst Lsm List

variable {left : List Entry} {e : Entry} {m : MemTable} {start stop : Bound Key}

/-! ## Groups -/

variable {es : List Entry}

/-- What is left behind the versions of the first key. -/
def restGroup : List Entry → List Entry
  | [] => []
  | e :: es => (e :: es).dropWhile fun x => x.key = e.key

/-- The heap entry of a source with these versions left. -/
def frontEntry (recency : Nat) (s : RangeSource) : List Entry → Option HeapEntry
  | [] => none
  | e :: es => some ⟨e.key, recency, s, (headGroup (e :: es)).map version⟩

theorem drop_headGroup (l : List Entry) : l.drop (headGroup l).length = restGroup l := by
  cases l with
  | nil => rfl
  | cons e es =>
    have hsplit : headGroup (e :: es) ++ restGroup (e :: es) = e :: es :=
      takeWhile_append_dropWhile
    have hdrop : (headGroup (e :: es) ++ restGroup (e :: es)).drop (headGroup (e :: es)).length =
        restGroup (e :: es) := drop_left
    rwa [hsplit] at hdrop

/-! ## SSTable cursors -/

section Cursors

variable {crc : Bytes → UInt32} {t : Table} {p : Peekable}

/-- The cursor and the item it has looked at have these records before them. -/
def Ahead (crc : Bytes → UInt32) (t : Table) (p : Peekable) (left : List Entry) : Prop :=
  match p.peeked with
  | none => Remaining crc t p.cursor left
  | some item => item = left.head?.map .ok ∧ Remaining crc t p.cursor left.tail

theorem peekable_next (h : Ahead crc t p left) :
    ∃ p', p.next crc t = .ok (left.head?.map .ok, p') ∧ Ahead crc t p' left.tail := by
  obtain ⟨cursor, peeked⟩ := p
  cases peeked with
  | some item =>
    obtain ⟨rfl, hrest⟩ := h
    exact ⟨⟨cursor, none⟩, rfl, hrest⟩
  | none =>
    obtain ⟨item, c', hnext, rfl, hrest⟩ := next_takes h
    refine ⟨⟨c', none⟩, ?_, hrest⟩
    unfold Peekable.next
    rw [hnext]
    rfl

theorem peekable_peek (h : Ahead crc t p left) :
    ∃ p', p.peek crc t = .ok (left.head?.map .ok, p') ∧ Ahead crc t p' left := by
  obtain ⟨cursor, peeked⟩ := p
  cases peeked with
  | some item =>
    obtain ⟨rfl, hrest⟩ := h
    exact ⟨_, rfl, rfl, hrest⟩
  | none =>
    obtain ⟨item, c', hnext, rfl, hrest⟩ := next_takes h
    refine ⟨⟨c', some (left.head?.map .ok)⟩, ?_, rfl, hrest⟩
    unfold Peekable.peek
    rw [hnext]
    rfl

/-- **The loop gathers the versions of the key** and stands before the next one. -/
theorem collect_ahead (key : Key) {fuel : Nat} {left : List Entry} {p : Peekable}
    (h : Ahead crc t p left) (hfuel : left.length < fuel) :
    ∃ p', collect crc t key fuel p = .ok ((left.takeWhile fun x => x.key = key).map version, p') ∧
      Ahead crc t p' (left.dropWhile fun x => x.key = key) := by
  induction fuel generalizing left p with
  | zero => omega
  | succ fuel ih =>
    obtain ⟨p₁, hpeek, hahead⟩ := peekable_peek h
    rw [collect, hpeek]
    cases left with
    | nil => exact ⟨p₁, rfl, hahead⟩
    | cons e es =>
      have hread : called (.ok (((e :: es).head?.map .ok : Item Entry), p₁) : Result _) =
          (.ok (some (.ok e), p₁) : ScanResult _) := rfl
      rw [hread, ok_bind]
      dsimp only
      by_cases hkey : e.key = key
      · obtain ⟨p₂, hnext, hahead₂⟩ := peekable_next hahead
        obtain ⟨p₃, hcollect, hahead₃⟩ := ih hahead₂ (by simpa using hfuel)
        refine ⟨p₃, ?_, ?_⟩
        · rw [if_pos hkey, hnext, takeWhile_cons_of_pos (by simpa using hkey)]
          have hitem : called (.ok (((e :: es).head?.map .ok : Item Entry), p₂) : Result _) =
              (.ok (some (.ok e), p₂) : ScanResult _) := rfl
          rw [hitem, ok_bind]
          dsimp only
          rw [hcollect]
          rfl
        · rwa [dropWhile_cons_of_pos (by simpa using hkey)]
      · refine ⟨p₁, ?_, ?_⟩
        · rw [if_neg hkey, takeWhile_cons_of_neg (by simpa using hkey)]
          rfl
        · rwa [dropWhile_cons_of_neg (by simpa using hkey)]

end Cursors

/-! ## Ranges of a MemTable -/

theorem admitsStart_tuple (he : e.seq ≤ u64Max) (start : Bound Key) :
    (boundToTupleStart start).admitsStart (entryKey e) ↔ start.admitsStart e.key := by
  cases start with
  | included k =>
    show toLex (k, 0) ≤ toLex (e.key, e.seq) ↔ k ≤ e.key
    rw [Prod.Lex.toLex_le_toLex, le_iff_lt_or_eq (a := k)]
    exact or_congr_right (and_iff_left (Nat.zero_le _))
  | excluded k =>
    show toLex (k, u64Max) < toLex (e.key, e.seq) ↔ k < e.key
    rw [Prod.Lex.toLex_lt_toLex]
    exact or_iff_left fun h => absurd h.2 (Nat.not_lt.mpr he)
  | unbounded => exact Iff.rfl

theorem admitsEnd_tuple (he : e.seq ≤ u64Max) (stop : Bound Key) :
    (boundToTupleEnd stop).admitsEnd (entryKey e) ↔ stop.admitsEnd e.key := by
  cases stop with
  | included k =>
    show toLex (e.key, e.seq) ≤ toLex (k, u64Max) ↔ e.key ≤ k
    rw [Prod.Lex.toLex_le_toLex, le_iff_lt_or_eq (b := k)]
    exact or_congr_right (and_iff_left he)
  | excluded k =>
    show toLex (e.key, e.seq) < toLex (k, 0) ↔ e.key < k
    rw [Prod.Lex.toLex_lt_toLex]
    exact or_iff_left fun h => absurd h.2 (Nat.not_lt_zero _)
  | unbounded => exact Iff.rfl

/-- Sequence numbers are 64 bits wide. -/
def SeqsFit (es : List Entry) : Prop := ∀ e ∈ es, e.seq ≤ u64Max

theorem range_eq_filter (h : SeqsFit m.map) (start stop : Bound Key) :
    m.range start stop = m.map.filter (inBounds start stop) := by
  refine filter_congr fun e he => ?_
  rw [inBounds, decide_eq_decide, admitsStart_tuple (h e he), admitsEnd_tuple (h e he)]

/-- A range that is not empty by its bounds alone does not panic. -/
theorem rangePanics_of_not_empty (h : rangeIsDefinitelyEmpty start stop = false) :
    rangePanics (boundToTupleStart start) (boundToTupleEnd stop) = false := by
  have hle : ∀ {s e : Key} {i j : Nat}, s < e → toLex (s, i) < toLex (e, j) :=
    fun hlt => Prod.Lex.toLex_lt_toLex.mpr (.inl hlt)
  cases start with
  | unbounded => rfl
  | included s =>
    cases stop with
    | unbounded => rfl
    | included e =>
      have hse : s ≤ e := not_lt.mp (of_decide_eq_false h)
      refine decide_eq_false (not_lt.mpr ?_)
      exact Prod.Lex.toLex_le_toLex.mpr
        ((lt_or_eq_of_le hse).imp id fun heq => ⟨heq, Nat.zero_le _⟩)
    | excluded e => exact decide_eq_false (hle (not_le.mp (of_decide_eq_false h))).le.not_gt
  | excluded s =>
    cases stop with
    | unbounded => rfl
    | included e => exact decide_eq_false (hle (not_le.mp (of_decide_eq_false h))).le.not_gt
    | excluded e => exact decide_eq_false (hle (not_le.mp (of_decide_eq_false h))).not_ge

/-- Nor does the range behind a key that is not past the end. -/
theorem rangePanics_behind {key : Key} (h : stop.admitsEnd key) :
    rangePanics (boundToTupleStart (.excluded key)) (boundToTupleEnd stop) = false := by
  cases stop with
  | unbounded => rfl
  | included e =>
    refine decide_eq_false (not_lt.mpr ?_)
    exact Prod.Lex.toLex_le_toLex.mpr ((lt_or_eq_of_le h).imp id fun heq => ⟨heq, Nat.le_refl _⟩)
  | excluded e =>
    exact decide_eq_false (Prod.Lex.toLex_lt_toLex.mpr (.inl h)).not_ge

theorem admitsStart_of_le {a b : Key} (h : start.admitsStart a) (hle : a ≤ b) :
    start.admitsStart b := by
  cases start with
  | included k => exact le_trans h hle
  | excluded k => exact lt_of_lt_of_le h hle
  | unbounded => trivial

/-- Where keys ascend, the versions of the first key are all the versions of that key. -/
theorem restGroup_eq_filter (hasc : KeysAscend (e :: es)) :
    restGroup (e :: es) = (e :: es).filter fun x => x.key ≠ e.key := by
  have hle : ∀ x ∈ e :: es, e.key ≤ x.key := by
    intro x hx
    rcases mem_cons.mp hx with rfl | hx
    · exact le_refl _
    · exact (pairwise_cons.mp hasc).1 x hx
  unfold restGroup
  convert (takeWhile_dropWhile_eq (fun x : Entry => x.key) hasc hle).2

/-- **Resuming behind the first key** gives what is left behind its versions. -/
theorem range_behind (hm : SeqsFit m.map) (h : m.range start stop = e :: es) :
    m.range (.excluded e.key) stop = restGroup (e :: es) := by
  rw [range_eq_filter hm] at h ⊢
  have hasc : KeysAscend (e :: es) :=
    h ▸ List.Pairwise.filter _ (keysAscend_of_sorted m.sorted)
  have hmem : e ∈ m.map.filter (inBounds start stop) := by
    rw [h]
    exact mem_cons_self
  have hstart : start.admitsStart e.key := (of_decide_eq_true (mem_filter.mp hmem).2).1
  rw [restGroup_eq_filter hasc, ← h, filter_filter]
  refine filter_congr fun x hx => ?_
  -- a version in the range has another key only if its key is larger
  rw [Bool.eq_iff_iff, Bool.and_eq_true, decide_eq_true_iff]
  constructor
  · intro hin
    obtain ⟨hlt, hend⟩ := of_decide_eq_true hin
    exact ⟨hlt.ne', decide_eq_true ⟨admitsStart_of_le hstart hlt.le, hend⟩⟩
  · rintro ⟨hne, hin⟩
    have hx' : x ∈ e :: es := h ▸ mem_filter.mpr ⟨hx, hin⟩
    rcases mem_cons.mp hx' with rfl | hx'
    · exact absurd rfl hne
    · have hle := (pairwise_cons.mp hasc).1 x hx'
      exact decide_eq_true ⟨lt_of_le_of_ne hle (Ne.symm hne), (of_decide_eq_true hin).2⟩

/-! ## What a source has left -/

/-- What the source has left behind what it has put on the heap. -/
def Left (crc : Bytes → UInt32) (it : RangeScanIter) : RangeSource → List Entry → Prop
  | .active, left => it.readView.activeRange.drop it.activePosition = left
  | .immutable idx, left => ∃ m start, it.readView.immutables[idx]? = some m ∧
      it.immutableNextStart[idx]? = some (some start) ∧ SeqsFit m.map ∧
      tableRange m start it.stop = .ok left
  | .ssTable idx, left => ∃ t, it.readView.sstables[idx]? = some t ∧
      (it.sstableCursors[idx]? = some none ∧ left = [] ∨
        ∃ p, it.sstableCursors[idx]? = some (some p) ∧ Ahead crc t p left)

/-- `it'` is `it` but for where source `s` stands. -/
structure SameBut (s : RangeSource) (it it' : RangeScanIter) : Prop where
  readView : it'.readView = it.readView
  asOfSeq : it'.asOfSeq = it.asOfSeq
  stop : it'.stop = it.stop
  heap : it'.heap = it.heap
  heapInitialized : it'.heapInitialized = it.heapInitialized
  errored : it'.errored = it.errored
  activePosition : s ≠ .active → it'.activePosition = it.activePosition
  immutable : ∀ idx, s ≠ .immutable idx →
    it'.immutableNextStart[idx]? = it.immutableNextStart[idx]?
  ssTable : ∀ idx, s ≠ .ssTable idx → it'.sstableCursors[idx]? = it.sstableCursors[idx]?

section Peek

variable {crc : Bytes → UInt32} {it it' : RangeScanIter} {s s' : RangeSource}
    {idx limit : Nat}

theorem SameBut.refl (s : RangeSource) (it : RangeScanIter) : SameBut s it it :=
  ⟨rfl, rfl, rfl, rfl, rfl, rfl, fun _ => rfl, fun _ _ => rfl, fun _ _ => rfl⟩

/-- The other sources have left what they had. -/
theorem SameBut.keeps (h : SameBut s it it') (hne : s ≠ s') (hleft : Left crc it s' left) :
    Left crc it' s' left := by
  cases s' with
  | active =>
    unfold Left at hleft ⊢
    rwa [h.readView, h.activePosition hne]
  | immutable idx =>
    obtain ⟨m, start, hm, hstart, hfit, hrange⟩ := hleft
    exact ⟨m, start, h.readView ▸ hm, (h.immutable idx hne).trans hstart, hfit, h.stop ▸ hrange⟩
  | ssTable idx =>
    obtain ⟨t, ht, hcursor⟩ := hleft
    refine ⟨t, h.readView ▸ ht, ?_⟩
    rwa [h.ssTable idx hne]

theorem peekActive_left (h : Left crc it .active left) : ∃ it',
    it.peekActive = (frontEntry 0 .active left, it') ∧ Left crc it' .active (restGroup left) ∧
      SameBut .active it it' := by
  unfold RangeScanIter.peekActive
  rw [h]
  cases left with
  | nil => exact ⟨it, rfl, h, SameBut.refl _ _⟩
  | cons e es =>
    refine ⟨_, rfl, ?_, rfl, rfl, rfl, rfl, rfl, rfl, fun hne => absurd rfl hne, fun _ _ => rfl,
      fun _ _ => rfl⟩
    unfold Left
    rw [← drop_drop, h, drop_headGroup]

theorem tableRange_eq (h : tableRange m start stop = .ok left) : m.range start stop = left := by
  unfold tableRange at h
  split at h
  · cases h
  · exact Except.ok.inj h

theorem peekImmutable_left (recency : Nat) (h : Left crc it (.immutable idx) left) :
    ∃ it', it.peekImmutable idx recency = .ok (frontEntry recency (.immutable idx) left, it') ∧
      Left crc it' (.immutable idx) (restGroup left) ∧ SameBut (.immutable idx) it it' := by
  obtain ⟨m, start, hm, hstart, hfit, hrange⟩ := h
  have hindexStart : (indexAt it.immutableNextStart idx : ScanResult _) = .ok (some start) := by
    rw [indexAt, hstart]
  have hindexTable : (indexAt it.readView.immutables idx : ScanResult _) = .ok m := by
    rw [indexAt, hm]
  rw [RangeScanIter.peekImmutable, hindexStart, ok_bind]
  dsimp only
  rw [hindexTable, ok_bind, hrange]
  cases left with
  | nil => exact ⟨it, rfl, ⟨m, start, hm, hstart, hfit, hrange⟩, SameBut.refl _ _⟩
  | cons e es =>
    have hlist := tableRange_eq hrange
    have hbounds : inBounds start it.stop e = true := by
      rw [range_eq_filter hfit] at hlist
      have hmem : e ∈ m.map.filter (inBounds start it.stop) := by
        rw [hlist]
        exact mem_cons_self
      exact (mem_filter.mp hmem).2
    have hbehind : tableRange m (.excluded e.key) it.stop = .ok (restGroup (e :: es)) := by
      rw [tableRange, rangePanics_behind (of_decide_eq_true hbounds).2, if_neg (by decide),
        range_behind hfit hlist]
    have hlt : idx < it.immutableNextStart.length := (List.getElem?_eq_some_iff.mp hstart).1
    refine ⟨_, rfl, ⟨m, .excluded e.key, hm, ?_, hfit, hbehind⟩, rfl, rfl, rfl, rfl, rfl, rfl,
      fun _ => rfl, ?_, fun _ _ => rfl⟩
    · rw [getElem?_set_self hlt]
    · intro i hne
      exact getElem?_set_ne fun heq => hne (congrArg RangeSource.immutable heq)

/-- A cursor that is set aside or moved on leaves the others alone. -/
theorem sameBut_cursor (it : RangeScanIter) (idx : Nat) (cursor : Option Peekable) :
    SameBut (.ssTable idx) it { it with sstableCursors := it.sstableCursors.set idx cursor } :=
  ⟨rfl, rfl, rfl, rfl, rfl, rfl, fun _ => rfl, fun _ _ => rfl,
    fun _ hne => getElem?_set_ne fun heq => hne (congrArg RangeSource.ssTable heq)⟩

/-- A table gives its next group and stands behind it. -/
theorem peekSstable_left (recency : Nat) (h : Left crc it (.ssTable idx) left)
    (hlimit : left.length ≤ limit) :
    ∃ it', it.peekSstable crc limit idx recency =
        .ok (frontEntry recency (.ssTable idx) left, it') ∧
      Left crc it' (.ssTable idx) (restGroup left) ∧ SameBut (.ssTable idx) it it' := by
  obtain ⟨t, ht, ⟨hcursor, rfl⟩ | ⟨p, hcursor, hahead⟩⟩ := h
  · have hindex : (indexAt it.sstableCursors idx : ScanResult _) = .ok none := by
      rw [indexAt, hcursor]
    rw [RangeScanIter.peekSstable, hindex]
    exact ⟨it, rfl, ⟨t, ht, .inl ⟨hcursor, rfl⟩⟩, SameBut.refl _ _⟩
  · have hindex : (indexAt it.sstableCursors idx : ScanResult _) = .ok (some p) := by
      rw [indexAt, hcursor]
    have hindexTable : (indexAt it.readView.sstables idx : ScanResult _) = .ok t := by
      rw [indexAt, ht]
    have hlt : idx < it.sstableCursors.length := (List.getElem?_eq_some_iff.mp hcursor).1
    obtain ⟨p₁, hnext, hahead₁⟩ := peekable_next hahead
    rw [RangeScanIter.peekSstable, hindex, ok_bind]
    dsimp only
    rw [hindexTable, ok_bind, hnext]
    cases left with
    | nil =>
      refine ⟨_, rfl, ⟨t, ht, .inl ⟨?_, rfl⟩⟩, sameBut_cursor it idx none⟩
      exact getElem?_set_self hlt
    | cons e es =>
      -- the rest of the group is collected under the same limit
      obtain ⟨p₂, hcollect, hahead₂⟩ := collect_ahead e.key hahead₁ (by simpa using hlimit)
      have hitem : called (.ok (((e :: es).head?.map .ok : Item Entry), p₁) : Result _) =
          (.ok (some (.ok e), p₁) : ScanResult _) := rfl
      rw [hitem, ok_bind]
      dsimp only
      rw [hcollect]
      have hhead : headGroup (e :: es) = e :: es.takeWhile fun x => x.key = e.key :=
        takeWhile_cons_of_pos (p := fun x : Entry => decide (x.key = e.key)) (by simp)
      have hrest : restGroup (e :: es) = es.dropWhile fun x => x.key = e.key :=
        dropWhile_cons_of_pos (p := fun x : Entry => decide (x.key = e.key)) (by simp)
      refine ⟨{ it with sstableCursors := it.sstableCursors.set idx (some p₂) }, ?_,
        ⟨t, ht, .inr ⟨p₂, ?_, ?_⟩⟩, sameBut_cursor it idx (some p₂)⟩
      · rw [frontEntry, hhead]
        rfl
      · exact getElem?_set_self hlt
      · rw [hrest]
        exact hahead₂

/-- **Asking a source** takes the versions of its first key off what it has left. -/
theorem peek_left (h : Left crc it s left) (hlimit : left.length ≤ limit) :
    ∃ it', it.peek crc limit s = .ok (frontEntry (it.readView.recency s) s left, it') ∧
      Left crc it' s (restGroup left) ∧ SameBut s it it' := by
  cases s with
  | active =>
    obtain ⟨it', hpeek, hleft, hsame⟩ := peekActive_left h
    exact ⟨it', by rw [RangeScanIter.peek, hpeek]; rfl, hleft, hsame⟩
  | immutable idx => exact peekImmutable_left _ h
  | ssTable idx => exact peekSstable_left _ h hlimit

end Peek

end RubixDb.Proof
