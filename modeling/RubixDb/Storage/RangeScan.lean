import RubixDb.Storage.Engine
import RubixDb.Storage.SstReader

/-!
# Range scans

`RangeScanIter` of `src/lsm/mod.rs` and the lookup of `get_as_of` over the same sources:
the active MemTable, the frozen ones, newest first, and the SSTables, newest first. The scan
merges the sources lazily. For each of them it holds the versions of the next key in a heap,
takes the least key off the heap, lets the most recent source with a visible version decide,
and asks the sources it has taken from for their next key.

Nothing bounds the records a scan passes over before it yields one, so the loops take an
argument `limit`; a run that reaches it ends with `outOfFuel`, which is not an outcome of the
code. What a failed refill leaves in the heap and the cursors is not kept: an iterator that
has failed looks at neither again. The counters of the read path are left out.
-/

namespace RubixDb.Lsm

open Lib Sst

inductive ScanError where
  | engine (e : EngineError)
  /-- A loop of the model has reached its limit. -/
  | outOfFuel
deriving DecidableEq, Repr

abbrev ScanResult (α : Type) := Checked ScanError α

/-- A call of the reader made by a scan. -/
def called {α : Type} : Result α → ScanResult α
  | .ok a => .ok a
  | .error (.error e) => raise (.engine e)
  | .error .panicked => panicked

/-! ## The sources -/

/-- `BTreeMap::range` panics on these bounds. -/
def rangePanics (start stop : Bound (Key ×ₗ Nat)) : Bool :=
  match start, stop with
  | .unbounded, _ => false
  | _, .unbounded => false
  | .excluded s, .excluded e => e ≤ s
  | .included s, .included e => e < s
  | .included s, .excluded e => e < s
  | .excluded s, .included e => e < s

/-- `MemTable::range`. -/
def tableRange (m : MemTable) (start stop : Bound Key) : ScanResult (List Entry) :=
  if rangePanics (boundToTupleStart start) (boundToTupleEnd stop) then panicked
  else .ok (m.range start stop)

/-- What the engine reads from. -/
structure Sources where
  active : MemTable
  /-- Newest first. -/
  immutables : List MemTable
  /-- Newest first. -/
  sstables : List Table

structure ReadView where
  activeRange : List Entry
  immutables : List MemTable
  sstables : List Table

def rangeIsDefinitelyEmpty (start stop : Bound Key) : Bool :=
  match start, stop with
  | .unbounded, _ => false
  | _, .unbounded => false
  | .included s, .included e => e < s
  | .included s, .excluded e => e ≤ s
  | .excluded s, .included e => e ≤ s
  | .excluded s, .excluded e => e ≤ s

def Sources.captureReadView (src : Sources) (start stop : Bound Key) : ScanResult ReadView :=
  if rangeIsDefinitelyEmpty start stop then .ok ⟨[], [], []⟩
  else do
    let activeRange ← tableRange src.active start stop
    .ok ⟨activeRange, src.immutables, src.sstables⟩

/-! ## Point reads -/

/-- The loop of `get_as_of` over the SSTables. -/
def getFromTables (crc : Bytes → UInt32) (xxh64 : Bytes → Nat → UInt64) (key : Key)
    (asOfSeq : Nat) : List Table → Result (Option Bytes)
  | [] => .ok none
  | t :: ts => do
    let found ← t.getVersioned crc xxh64 key asOfSeq
    match found with
    | some v => .ok (resolve v.2)
    | none => getFromTables crc xxh64 key asOfSeq ts

def Sources.getAsOf (crc : Bytes → UInt32) (xxh64 : Bytes → Nat → UInt64) (src : Sources)
    (key : Key) (asOfSeq : Nat) : Result (Option Bytes) :=
  match src.active.getAsOf key asOfSeq with
  | some e => .ok (resolve e.value)
  | none =>
    match src.immutables.findSome? fun m => m.getAsOf key asOfSeq with
    | some e => .ok (resolve e.value)
    | none => getFromTables crc xxh64 key asOfSeq src.sstables

/-! ## The iterator -/

inductive RangeSource where
  | active
  | immutable (idx : Nat)
  | ssTable (idx : Nat)
deriving DecidableEq, Repr

structure HeapEntry where
  key : Key
  recency : Nat
  source : RangeSource
  versions : List (Nat × MemtableValue)

/-- The order of the heap: by key, then by recency. -/
def HeapEntry.rank (entry : HeapEntry) : Key ×ₗ Nat := toLex (entry.key, entry.recency)

/-- `BinaryHeap::push`; the heap is the list of its entries in the order they are popped. -/
def heapPush (entry : HeapEntry) : List HeapEntry → List HeapEntry
  | [] => [entry]
  | top :: heap =>
    if entry.rank ≤ top.rank then entry :: top :: heap else top :: heapPush entry heap

/-- `Peekable<SsTableRangeCursor>`: the cursor and the item that has been looked at. -/
structure Peekable where
  cursor : Cursor
  peeked : Option (Item Entry)

structure RangeScanIter where
  readView : ReadView
  asOfSeq : Nat
  stop : Bound Key
  activePosition : Nat
  immutableNextStart : List (Option (Bound Key))
  sstableCursors : List (Option Peekable)
  heap : List HeapEntry
  heapInitialized : Bool
  errored : Bool

def RangeScanIter.new (readView : ReadView) (start stop : Bound Key) (asOfSeq : Nat) :
    RangeScanIter where
  readView := readView
  asOfSeq := asOfSeq
  stop := stop
  activePosition := 0
  immutableNextStart := readView.immutables.map fun _ => some start
  sstableCursors := readView.sstables.map fun t => some ⟨t.rangeScan start stop, none⟩
  heap := []
  heapInitialized := false
  errored := false

def Sources.rangeScan (src : Sources) (start stop : Bound Key) (asOfSeq : Nat) :
    ScanResult RangeScanIter := do
  let readView ← src.captureReadView start stop
  .ok (.new readView start stop asOfSeq)

/-- A version without its key. -/
def version (e : Entry) : Nat × MemtableValue := (e.seq, e.value)

/-- The versions of the first key of `es`. -/
def headGroup : List Entry → List Entry
  | [] => []
  | e :: es => (e :: es).takeWhile fun x => x.key = e.key

def RangeScanIter.peekActive (it : RangeScanIter) : Option HeapEntry × RangeScanIter :=
  match it.readView.activeRange.drop it.activePosition with
  | [] => (none, it)
  | e :: es =>
    let group := headGroup (e :: es)
    (some ⟨e.key, 0, .active, group.map version⟩,
      { it with activePosition := it.activePosition + group.length })

def RangeScanIter.peekImmutable (it : RangeScanIter) (idx recency : Nat) :
    ScanResult (Option HeapEntry × RangeScanIter) := do
  let nextStart ← indexAt it.immutableNextStart idx
  match nextStart with
  | none => .ok (none, it)
  | some nextStart => do
    let table ← indexAt it.readView.immutables idx
    let entries ← tableRange table nextStart it.stop
    match entries with
    | [] => .ok (none, it)
    | e :: es =>
      .ok (some ⟨e.key, recency, .immutable idx, (headGroup (e :: es)).map version⟩,
        { it with
          immutableNextStart := it.immutableNextStart.set idx (some (.excluded e.key)) })

section Tables

variable (crc : Bytes → UInt32)

def Peekable.next (t : Table) (p : Peekable) : Result (Item Entry × Peekable) :=
  match p.peeked with
  | some item => .ok (item, { p with peeked := none })
  | none => do
    let (item, cursor) ← t.next crc p.cursor
    .ok (item, { p with cursor })

def Peekable.peek (t : Table) (p : Peekable) : Result (Item Entry × Peekable) :=
  match p.peeked with
  | some item => .ok (item, p)
  | none => do
    let (item, cursor) ← t.next crc p.cursor
    .ok (item, ⟨cursor, some item⟩)

/-- The loop of `peek_sstable` that gathers the other versions of the key. -/
def collect (t : Table) (key : Key) : Nat → Peekable →
    ScanResult (List (Nat × MemtableValue) × Peekable)
  | 0, _ => raise .outOfFuel
  | fuel + 1, p => do
    let (ahead, p) ← called (p.peek crc t)
    match ahead with
    | none => .ok ([], p)
    | some (.error e) => raise (.engine e)
    | some (.ok e) =>
      if e.key = key then do
        let (item, p) ← called (p.next crc t)
        match item with
        | some (.ok e) => do
          let (versions, p) ← collect t key fuel p
          .ok (version e :: versions, p)
        | _ => panicked
      else .ok ([], p)

def RangeScanIter.peekSstable (limit : Nat) (it : RangeScanIter) (idx recency : Nat) :
    ScanResult (Option HeapEntry × RangeScanIter) := do
  let cursor ← indexAt it.sstableCursors idx
  match cursor with
  | none => .ok (none, it)
  | some p => do
    let t ← indexAt it.readView.sstables idx
    let (item, p) ← called (p.next crc t)
    match item with
    | none => .ok (none, { it with sstableCursors := it.sstableCursors.set idx none })
    | some (.error e) => raise (.engine e)
    | some (.ok e) => do
      let (versions, p) ← collect crc t e.key limit p
      .ok (some ⟨e.key, recency, .ssTable idx, version e :: versions⟩,
        { it with sstableCursors := it.sstableCursors.set idx (some p) })

/-- The sources in the order `refill` goes through them, which is that of their recency. -/
def ReadView.sources (view : ReadView) : List RangeSource :=
  .active :: ((List.range view.immutables.length).map .immutable ++
    (List.range view.sstables.length).map .ssTable)

def ReadView.recency (view : ReadView) : RangeSource → Nat
  | .active => 0
  | .immutable idx => 1 + idx
  | .ssTable idx => 1 + view.immutables.length + idx

def RangeScanIter.peek (limit : Nat) (it : RangeScanIter) (s : RangeSource) :
    ScanResult (Option HeapEntry × RangeScanIter) :=
  match s with
  | .active => .ok it.peekActive
  | .immutable idx => it.peekImmutable idx (it.readView.recency s)
  | .ssTable idx => it.peekSstable crc limit idx (it.readView.recency s)

/-- `refill` over the sources from one on; `want` says which are asked. -/
def RangeScanIter.refill (limit : Nat) (want : RangeSource → Bool) :
    List RangeSource → RangeScanIter → ScanResult RangeScanIter
  | [], it => .ok it
  | s :: ss, it =>
    if want s then do
      let (entry, it) ← it.peek crc limit s
      RangeScanIter.refill limit want ss { it with heap := entry.elim it.heap (heapPush · it.heap) }
    else RangeScanIter.refill limit want ss it

/-- `max_by_key`: the last of the versions with the highest sequence number. -/
def maxBySeq : List (Nat × MemtableValue) → Option (Nat × MemtableValue) :=
  List.foldl (fun best v => if best.all (·.1 ≤ v.1) then some v else best) none

/-- The newest of the versions visible at `asOfSeq`. -/
def newestVisible (asOfSeq : Nat) (versions : List (Nat × MemtableValue)) :
    Option (Nat × MemtableValue) :=
  maxBySeq (versions.filter fun v => v.1 ≤ asOfSeq)

/-- The loop of `next`. -/
def RangeScanIter.resume (limit : Nat) : Nat → RangeScanIter →
    ScanResult (Item (Key × Bytes) × RangeScanIter)
  | 0, _ => raise .outOfFuel
  | fuel + 1, it =>
    match it.heap with
    | [] => .ok (none, it)
    | first :: _ =>
      let group := it.heap.takeWhile fun entry => entry.key = first.key
      let it := { it with heap := it.heap.dropWhile fun entry => entry.key = first.key }
      let winner := group.findSome? fun entry => newestVisible it.asOfSeq entry.versions
      let taken := group.map (·.source)
      match it.refill crc limit taken.contains it.readView.sources with
      | .ok it =>
        match winner with
        | some (_, .put v) => .ok (some (.ok (first.key, v)), it)
        | _ => RangeScanIter.resume limit fuel it
      | .error (.error (.engine e)) => .ok (some (.error e), { it with errored := true })
      | .error fault => .error fault

def RangeScanIter.next (limit : Nat) (it : RangeScanIter) :
    ScanResult (Item (Key × Bytes) × RangeScanIter) :=
  if it.errored then .ok (none, it)
  else if it.heapInitialized then it.resume crc limit limit
  else
    let it := { it with heapInitialized := true }
    match it.refill crc limit (fun _ => true) it.readView.sources with
    | .ok it => it.resume crc limit limit
    | .error (.error (.engine e)) => .ok (some (.error e), { it with errored := true })
    | .error fault => .error fault

end Tables

end RubixDb.Lsm
