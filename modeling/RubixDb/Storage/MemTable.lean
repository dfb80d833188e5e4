import RubixDb.Lib.SortedMap
import RubixDb.Lib.Versions

/-!
# The MemTable

`src/memtable/mod.rs`: a `BTreeMap` from `(user_key, seq)` to a value or a
tombstone, with a byte count that decides when the table is full. The map is a
list kept strictly increasing in `(key, seq)`, which the structure carries as a
field, so there is never more than one value for a key at a sequence number.
-/

namespace RubixDb

open Lib

abbrev Bytes := List UInt8

abbrev Key := Bytes

/-- `u32::MAX`. -/
def u32Max : Nat := 2 ^ 32 - 1

/-- `u64::MAX`. -/
def u64Max : Nat := 2 ^ 64 - 1

/-- Bytes compare as unsigned numbers, so keys compare as Rust slices do. -/
instance instLinearOrderUInt8 : LinearOrder UInt8 where
  le_refl := UInt8.le_refl
  le_trans := fun _ _ _ => UInt8.le_trans
  le_antisymm := fun _ _ => UInt8.le_antisymm
  le_total := UInt8.le_total
  lt_iff_le_not_ge := fun a b => by
    simp only [UInt8.le_iff_toNat_le, UInt8.lt_iff_toNat_lt]
    omega
  toDecidableLE := inferInstance

inductive MemtableValue where
  | put (value : Bytes)
  | tombstone
deriving DecidableEq, Repr

def MemtableValue.payloadLen : MemtableValue → Nat
  | .put v => v.length
  | .tombstone => 0

/-- One `((key, seq), value)` entry of a MemTable or record of an SSTable. -/
abbrev Entry := Version Key MemtableValue

/-- The `BTreeMap` key of an entry; tuples compare lexicographically. -/
def entryKey (e : Entry) : Key ×ₗ Nat := toLex (e.key, e.seq)

def entryOverhead : Nat := 32

def entrySize (key : Key) (value : MemtableValue) : Nat :=
  key.length + value.payloadLen + entryOverhead

structure MemTable where
  map : List Entry
  sizeBytes : Nat
  maxSizeBytes : Nat
  minSeq : Option Nat
  maxSeq : Option Nat
  sorted : SortedBy entryKey map

/-- `std::ops::Bound`. -/
inductive Bound (α : Type) where
  | included (a : α)
  | excluded (a : α)
  | unbounded
deriving DecidableEq, Repr

namespace Bound

variable {α : Type} [LinearOrder α]

/-- `x` is at or after the start of a range. -/
def admitsStart : Bound α → α → Prop
  | .included a, x => a ≤ x
  | .excluded a, x => a < x
  | .unbounded, _ => True

/-- `x` is at or before the end of a range. -/
def admitsEnd : Bound α → α → Prop
  | .included a, x => x ≤ a
  | .excluded a, x => x < a
  | .unbounded, _ => True

instance (b : Bound α) (x : α) : Decidable (b.admitsStart x) :=
  match b with
  | .included a => inferInstanceAs (Decidable (a ≤ x))
  | .excluded a => inferInstanceAs (Decidable (a < x))
  | .unbounded => inferInstanceAs (Decidable True)

instance (b : Bound α) (x : α) : Decidable (b.admitsEnd x) :=
  match b with
  | .included a => inferInstanceAs (Decidable (x ≤ a))
  | .excluded a => inferInstanceAs (Decidable (x < a))
  | .unbounded => inferInstanceAs (Decidable True)

end Bound

def boundToTupleStart : Bound Key → Bound (Key ×ₗ Nat)
  | .included k => .included (toLex (k, 0))
  | .excluded k => .excluded (toLex (k, u64Max))
  | .unbounded => .unbounded

def boundToTupleEnd : Bound Key → Bound (Key ×ₗ Nat)
  | .included k => .included (toLex (k, u64Max))
  | .excluded k => .excluded (toLex (k, 0))
  | .unbounded => .unbounded

namespace MemTable

def new (maxSizeBytes : Nat) : MemTable where
  map := []
  sizeBytes := 0
  maxSizeBytes := maxSizeBytes
  minSeq := none
  maxSeq := none
  sorted := List.Pairwise.nil

def insert (m : MemTable) (key : Key) (seq : Nat) (value : MemtableValue) : MemTable where
  map := insertBy entryKey ⟨key, seq, value⟩ m.map
  sizeBytes := m.sizeBytes + entrySize key value
  maxSizeBytes := m.maxSizeBytes
  minSeq := some (m.minSeq.elim seq fun s => min s seq)
  maxSeq := some (m.maxSeq.elim seq fun s => max s seq)
  sorted := m.sorted.insertBy _

def put (m : MemTable) (key : Key) (seq : Nat) (value : Bytes) : MemTable :=
  m.insert key seq (.put value)

def delete (m : MemTable) (key : Key) (seq : Nat) : MemTable :=
  m.insert key seq .tombstone

/-- The entries of `range((key, 0)..=(key, as_of))`; the last of them answers. -/
def getAsOf (m : MemTable) (key : Key) (asOf : Nat) : Option Entry :=
  (m.map.filter fun e =>
    toLex (key, 0) ≤ entryKey e ∧ entryKey e ≤ toLex (key, asOf)).getLast?

/-- All versions of all keys in the range, unresolved. -/
def range (m : MemTable) (start stop : Bound Key) : List Entry :=
  m.map.filter fun e =>
    (boundToTupleStart start).admitsStart (entryKey e) ∧
      (boundToTupleEnd stop).admitsEnd (entryKey e)

def isFull (m : MemTable) : Bool := m.maxSizeBytes ≤ m.sizeBytes

/-! ## What a MemTable holds -/

@[simp] theorem map_new (n : Nat) : (MemTable.new n).map = [] := rfl

theorem entryKey_eq_iff {a b : Entry} :
    entryKey a = entryKey b ↔ a.key = b.key ∧ a.seq = b.seq := by
  unfold entryKey
  rw [EmbeddingLike.apply_eq_iff_eq, Prod.mk.injEq]

/-- A key and a sequence number name at most one entry. -/
theorem coherent (m : MemTable) : Coherent m.map :=
  fun _ hv _ hw hk hs => m.sorted.eq_of_key_eq hv hw (entryKey_eq_iff.mpr ⟨hk, hs⟩)

theorem mem_insert {m : MemTable} {key : Key} {seq : Nat} {value : MemtableValue} {e : Entry} :
    e ∈ (m.insert key seq value).map ↔
      e = ⟨key, seq, value⟩ ∨ e ∈ m.map ∧ ¬ (e.key = key ∧ e.seq = seq) := by
  show e ∈ insertBy entryKey _ m.map ↔ _
  rw [mem_insertBy m.sorted, Ne, entryKey_eq_iff]

/-- The tuple range `(key, 0)..=(key, asOf)` holds the versions visible at `asOf`. -/
theorem in_tuple_range_iff {e : Entry} {key : Key} {asOf : Nat} :
    toLex (key, 0) ≤ entryKey e ∧ entryKey e ≤ toLex (key, asOf) ↔ Visible key asOf e := by
  unfold entryKey Visible
  rw [Prod.Lex.toLex_le_toLex, Prod.Lex.toLex_le_toLex]
  constructor
  · rintro ⟨h | ⟨h, -⟩, h' | ⟨h', hs⟩⟩
    · exact absurd (h.trans h') (lt_irrefl _)
    · exact absurd (h' ▸ h) (lt_irrefl _)
    · exact absurd (h ▸ h') (lt_irrefl _)
    · exact ⟨h', hs⟩
  · rintro ⟨h, hs⟩
    exact ⟨.inr ⟨h.symm, Nat.zero_le _⟩, .inr ⟨h, hs⟩⟩

/-- In a sorted list the last element is at least every other one. -/
theorem key_le_getLast? {l : List Entry} (h : SortedBy entryKey l) {v : Entry}
    (hv : l.getLast? = some v) : ∀ w ∈ l, entryKey w ≤ entryKey v := by
  obtain ⟨ys, rfl⟩ := List.getLast?_eq_some_iff.mp hv
  intro w hw
  rcases List.mem_append.mp hw with hw | hw
  · exact ((List.pairwise_append.mp h).2.2 w hw v (by simp)).le
  · rw [List.mem_singleton.mp hw]

/-- **`get_as_of` returns the newest visible version.** -/
theorem getAsOf_eq_best (m : MemTable) (key : Key) (asOf : Nat) :
    m.getAsOf key asOf = best m.map key asOf := by
  unfold getAsOf
  set l := m.map.filter fun e =>
    toLex (key, 0) ≤ entryKey e ∧ entryKey e ≤ toLex (key, asOf) with hl
  have hmem : ∀ e, e ∈ l ↔ e ∈ m.map ∧ Visible key asOf e := by
    intro e
    rw [hl, List.mem_filter, decide_eq_true_iff, in_tuple_range_iff]
  have hsorted : SortedBy entryKey l := List.Pairwise.filter _ m.sorted
  cases hv : l.getLast? with
  | none =>
    rw [List.getLast?_eq_none_iff] at hv
    refine (best_eq_none_iff.mpr fun w hw hvis => ?_).symm
    have := (hmem w).mpr ⟨hw, hvis⟩
    rw [hv] at this
    exact absurd this (by simp)
  | some v =>
    obtain ⟨hm, hvis⟩ := (hmem v).mp (List.mem_of_getLast? hv)
    refine (best_eq_of_isBest m.coherent ⟨hm, hvis, ?_⟩).symm
    intro w hw hwv
    have hle := key_le_getLast? hsorted hv w ((hmem w).mpr ⟨hw, hwv⟩)
    unfold entryKey at hle
    rcases Prod.Lex.toLex_le_toLex.mp hle with hlt | hle
    · exact absurd (hwv.1.trans hvis.1.symm ▸ hlt) (lt_irrefl _)
    · exact hle.2

end MemTable

end RubixDb
