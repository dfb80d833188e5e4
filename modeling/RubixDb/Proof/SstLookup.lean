import RubixDb.Proof.SstCodec

/-!
# Lookups and scans over the blocks of a table

What a table holds is a list of records: the index leads, entry by entry, to the blocks
whose concatenation the list is (`Indexes`). Keys ascend over the whole list, so all a search
needs from the index is the last key of each block. The blocks before the first whose last
key reaches the key, and those behind the first whose last key passes it, hold no version of
it; in between a key may fill several blocks, which then share their last key.

A cursor is described by the records it has still to yield (`Remaining`), and `next` takes
the first of them.
-/

namespace RubixDb.Proof

open Lib Sst List

/-! ## Ascending keys -/

variable {es fs : List Entry} {key : Key} {asOf : Nat}

/-- Keys do not descend. Versions of one key may follow one another. -/
def KeysAscend (es : List Entry) : Prop := es.Pairwise fun a b => a.key ≤ b.key

theorem keysAscend_of_sorted (h : SortedBy entryKey es) : KeysAscend es :=
  h.imp fun {a b} hlt => by
    rcases Prod.Lex.lt_iff.mp hlt with hkey | hkey
    · exact hkey.le
    · exact hkey.1.le

/-- The last key of a block, as the writer names it in the index. -/
def lastKeyOf (block : List Entry) : Key := (block.getLast?.map (·.key)).getD []

theorem lastKeyOf_append_singleton (block : List Entry) (e : Entry) :
    lastKeyOf (block ++ [e]) = e.key := by
  simp [lastKeyOf]

section Ascend

variable {block rest : List Entry} {e : Entry}

theorem key_le_lastKeyOf (h : KeysAscend block) (he : e ∈ block) : e.key ≤ lastKeyOf block := by
  obtain rfl | ⟨init, last, rfl⟩ := eq_nil_or_concat' block
  · cases he
  rw [lastKeyOf_append_singleton]
  rcases mem_append.mp he with he | he
  · exact (pairwise_append.mp h).2.2 e he last (by simp)
  · rw [mem_singleton.mp he]

theorem lastKeyOf_le (h : KeysAscend (block ++ rest)) (hne : block ≠ []) (he : e ∈ rest) :
    lastKeyOf block ≤ e.key := by
  obtain rfl | ⟨init, last, rfl⟩ := eq_nil_or_concat' block
  · exact absurd rfl hne
  rw [lastKeyOf_append_singleton]
  exact (pairwise_append.mp h).2.2 last (by simp) e he

end Ascend

/-! ## `best` over a part -/

theorem foldl_pickNewer_of_not_visible {es : List Entry} (acc : Option Entry)
    (h : ∀ e ∈ es, e.key ≠ key) : es.foldl (pickNewer key asOf) acc = acc := by
  induction es generalizing acc with
  | nil => rfl
  | cons e es ih =>
    have hsame : pickNewer key asOf acc e = acc := if_neg fun hvis => h e (by simp) hvis.1
    rw [foldl_cons, hsame]
    exact ih acc fun x hx => h x (mem_cons_of_mem _ hx)

theorem best_append_left
    (h : ∀ e ∈ fs, e.key ≠ key) : best (es ++ fs) key asOf = best es key asOf := by
  rw [best, foldl_append, foldl_pickNewer_of_not_visible _ h, best]

theorem best_append_right
    (h : ∀ e ∈ es, e.key ≠ key) : best (es ++ fs) key asOf = best fs key asOf := by
  rw [best, foldl_append, foldl_pickNewer_of_not_visible _ h, best]

/-! ## What a table holds -/

section Tables

variable (crc : Bytes → UInt32) (t : Table) {stop : Bound Key}

/-- The entry leads to this block. -/
structure Leads (entry : IndexEntry) (block : List Entry) : Prop where
  ne_nil : block ≠ []
  lastKey : entry.lastKey = lastKeyOf block
  read : t.readBlock crc entry = .ok (block.map decoded)

/-- The entries lead to these blocks, one by one. -/
abbrev Indexes (entries : List IndexEntry) (blocks : List (List Entry)) : Prop :=
  List.Forall₂ (Leads crc t) entries blocks

variable {crc t} {entries : List IndexEntry} {blocks : List (List Entry)}

/-- The blocks that end before the key hold only smaller keys. -/
theorem Indexes.skip (h : Indexes crc t entries blocks) (hasc : KeysAscend blocks.flatten)
    (key : Key) : ∃ skipped blocks',
      Indexes crc t (entries.dropWhile fun entry => decide (entry.lastKey < key)) blocks' ∧
      blocks.flatten = skipped ++ blocks'.flatten ∧ ∀ e ∈ skipped, e.key < key := by
  induction h with
  | nil => exact ⟨[], [], .nil, rfl, by simp⟩
  | @cons entry block entries blocks hlead hrest ih =>
    obtain ⟨hblock, hflat, _⟩ := pairwise_append.mp hasc
    by_cases hlt : entry.lastKey < key
    · obtain ⟨skipped, blocks', hholds, heq, hskip⟩ := ih hflat
      refine ⟨block ++ skipped, blocks', ?_, ?_, ?_⟩
      · rwa [dropWhile_cons_of_pos (by simpa using hlt)]
      · rw [flatten_cons, heq, append_assoc]
      · intro e he
        rcases mem_append.mp he with he | he
        · exact (key_le_lastKeyOf hblock he).trans_lt (hlead.lastKey ▸ hlt)
        · exact hskip e he
    · refine ⟨[], block :: blocks, ?_, rfl, by simp⟩
      rw [dropWhile_cons_of_neg (by simpa using hlt)]
      exact .cons hlead hrest

/-- The candidates at the front of the entries from the search position on. -/
def span (key : Key) : List IndexEntry → List IndexEntry
  | [] => []
  | [entry] => [entry]
  | entry :: next :: entries =>
    if entry.lastKey = key then entry :: span key (next :: entries) else [entry]

/-- The blocks behind the candidates hold only larger keys. -/
theorem Indexes.span (h : Indexes crc t entries blocks) (hasc : KeysAscend blocks.flatten)
    (hfirst : ∀ entry ∈ entries.head?, key ≤ entry.lastKey) :
    ∃ taken beyond, Indexes crc t (Proof.span key entries) taken ∧
      blocks.flatten = taken.flatten ++ beyond ∧ ∀ e ∈ beyond, key < e.key := by
  induction h with
  | nil => exact ⟨[], [], .nil, rfl, by simp⟩
  | @cons entry block entries blocks hlead hrest ih =>
    have hasc' := hasc
    have hle : key ≤ lastKeyOf block := hlead.lastKey ▸ hfirst entry rfl
    have hbehind : ∀ e ∈ blocks.flatten, lastKeyOf block ≤ e.key :=
      fun e he => lastKeyOf_le hasc' hlead.ne_nil he
    cases hrest with
    | nil => exact ⟨[block], [], .cons hlead .nil, by simp, by simp⟩
    | @cons next block₂ entries blocks hlead₂ hrest =>
      by_cases hkey : entry.lastKey = key
      · -- the key may go on in the next block
        have hnext : ∀ x ∈ (next :: entries).head?, key ≤ x.lastKey := by
          intro x hx
          obtain rfl : next = x := Option.some.inj hx
          obtain ⟨e, he⟩ := exists_mem_of_ne_nil _ hlead₂.ne_nil
          have hmem : e ∈ (block₂ :: blocks).flatten :=
            mem_flatten.mpr ⟨block₂, by simp, he⟩
          have hblock₂ : KeysAscend block₂ := by
            have hflat := (pairwise_append.mp hasc').2.1
            exact (pairwise_append.mp hflat).1
          rw [hlead₂.lastKey]
          exact (hle.trans (hbehind e hmem)).trans (key_le_lastKeyOf hblock₂ he)
        obtain ⟨taken, beyond, hholds, heq, hbeyond⟩ :=
          ih (pairwise_append.mp hasc').2.1 hnext
        refine ⟨block :: taken, beyond, ?_, ?_, hbeyond⟩
        · rw [Proof.span, if_pos hkey]
          exact .cons hlead hholds
        · rw [flatten_cons, heq, flatten_cons, append_assoc]
      · refine ⟨[block], (block₂ :: blocks).flatten, ?_, by simp, ?_⟩
        · rw [Proof.span, if_neg hkey]
          exact .cons hlead .nil
        · intro e he
          have hlt : key < lastKeyOf block := lt_of_le_of_ne hle (hlead.lastKey ▸ Ne.symm hkey)
          exact hlt.trans_le (hbehind e he)

/-! ## Lookups -/

theorem drop_partitionPoint (p : IndexEntry → Bool) (index : List IndexEntry) :
    index.drop (partitionPoint p index) = index.dropWhile p := by
  have hsplit := takeWhile_append_dropWhile (p := p) (l := index)
  calc index.drop (partitionPoint p index)
      = (index.takeWhile p ++ index.dropWhile p).drop (index.takeWhile p).length := by
        rw [hsplit, partitionPoint]
    _ = index.dropWhile p := drop_left

/-- The loop over the index collects the candidates; `fuel` blocks are enough. -/
theorem candidates_eq (key : Key) {fuel idx : Nat} (hidx : idx < t.index.length)
    (hfuel : t.index.length ≤ idx + fuel) :
    t.candidates key fuel idx = .ok (span key (t.index.drop idx)) := by
  induction fuel generalizing idx with
  | zero => omega
  | succ fuel ih =>
    rw [Table.candidates, indexAt_eq hidx, ok_bind, drop_eq_getElem_cons hidx]
    by_cases hnext : idx + 1 < t.index.length
    · by_cases hkey : t.index[idx].lastKey = key
      · rw [if_pos ⟨hkey, hnext⟩, ih hnext (by omega), ok_bind, drop_eq_getElem_cons hnext,
          span, if_pos hkey]
      · rw [if_neg fun hboth => hkey hboth.1, drop_eq_getElem_cons hnext, span, if_neg hkey]
    · rw [if_neg fun hboth => hnext hboth.2, drop_eq_nil_of_le (Nat.not_lt.mp hnext), span]

section Pick

variable {β : Type} (key : Key) (asOf : Nat) (value : DecodedRecord → β)

/-- The candidate of a lookup for a version that has been found. -/
def picked (e : Entry) : Nat × β := (e.seq, value (decoded e))

theorem pickRecords_eq (es : List Entry) (acc : Option Entry) :
    pickRecords key asOf value (acc.map (picked value)) (es.map decoded) =
      (es.foldl (pickNewer key asOf) acc).map (picked value) := by
  induction es generalizing acc with
  | nil => rfl
  | cons e es ih =>
    have hstep : (if e.key = key ∧ e.seq ≤ asOf ∧ (acc.map (picked value)).all (·.1 < e.seq) then
        some (picked value e) else acc.map (picked value)) =
        (pickNewer key asOf acc e).map (picked value) := by
      unfold pickNewer
      by_cases hvis : e.key = key ∧ e.seq ≤ asOf
      · rw [if_pos hvis]
        cases acc with
        | none => rw [if_pos ⟨hvis.1, hvis.2, rfl⟩]; rfl
        | some b =>
          by_cases hlt : b.seq < e.seq
          · rw [if_pos ⟨hvis.1, hvis.2, decide_eq_true hlt⟩]
            simp [hlt]
          · rw [if_neg fun hall => hlt (of_decide_eq_true hall.2.2)]
            simp [hlt]
      · rw [if_neg hvis, if_neg fun hall => hvis ⟨hall.1, hall.2.1⟩]
    rw [foldl_cons, ← ih, ← hstep, map_cons]
    exact (apply_ite (fun best => pickRecords key asOf value best (es.map decoded)) _ _ _).symm

theorem pickBlocks_eq (h : Indexes crc t entries blocks) : ∀ (acc : Option Entry),
    t.pickBlocks crc key asOf value (acc.map (picked value)) entries =
      .ok ((blocks.flatten.foldl (pickNewer key asOf) acc).map (picked value)) := by
  induction h with
  | nil => intro acc; rfl
  | @cons entry block entries blocks hlead _ ih =>
    intro acc
    rw [Table.pickBlocks, hlead.read, ok_bind, pickRecords_eq, ih, flatten_cons,
      foldl_append]

end Pick

variable (crc t) (xxh64 : Bytes → Nat → UInt64)

/-- **A table that stores these records**: its index leads to blocks that make up the list,
keys ascend, and the bloom filter answers every key without missing one that is there. -/
structure Stores (records : List Entry) : Prop where
  blocks : ∃ blocks, Indexes crc t t.index blocks ∧ blocks.flatten = records
  ascend : KeysAscend records
  bloom : ∀ key, ∃ maybe, t.bloom.mightContain xxh64 key = .ok maybe ∧
    ((∃ e ∈ records, e.key = key) → maybe = true)

variable {crc t xxh64} {records : List Entry}

/-- **A lookup finds the newest version the table has.** -/
theorem Stores.lookup_eq {β : Type} (h : Stores crc t xxh64 records) (key : Key) (asOf : Nat)
    (value : DecodedRecord → β) :
    t.lookup crc xxh64 key asOf value = .ok ((best records key asOf).map (picked value)) := by
  obtain ⟨blocks, hindex, rfl⟩ := h.blocks
  obtain ⟨maybe, hmaybe, hmem⟩ := h.bloom key
  obtain ⟨skipped, blocks', hholds, hflat, hskip⟩ := hindex.skip h.ascend key
  rw [← drop_partitionPoint] at hholds
  have hbest : best blocks.flatten key asOf = best blocks'.flatten key asOf := by
    rw [hflat]
    exact best_append_right fun e he => (hskip e he).ne
  rw [Table.lookup, hmaybe, ok_bind]
  cases maybe with
  | false =>
    have hnone : best blocks.flatten key asOf = none :=
      best_eq_none_iff.mpr fun e he hvis => absurd (hmem ⟨e, he, hvis.1⟩) (by decide)
    rw [hnone]
    rfl
  | true =>
    rw [if_neg (by decide)]
    by_cases hlen : t.index.length ≤
        partitionPoint (fun entry => decide (entry.lastKey < key)) t.index
    · -- every block ends before the key
      rw [drop_eq_nil_of_le hlen] at hholds
      cases hholds
      rw [hbest, if_pos hlen, ite_self]
      rfl
    · have hidx := Nat.not_le.mp hlen
      have hne : ¬t.index.isEmpty = true := by
        intro hempty
        rw [isEmpty_iff.mp hempty] at hidx
        exact Nat.not_lt_zero _ hidx
      have hfirst : ∀ entry ∈ (t.index.drop (partitionPoint
          (fun entry => decide (entry.lastKey < key)) t.index)).head?, key ≤ entry.lastKey := by
        intro entry hentry
        rw [drop_partitionPoint] at hentry
        have hnot := head?_dropWhile_not (fun entry => decide (entry.lastKey < key)) t.index
        rw [hentry] at hnot
        simpa using hnot
      have hasc : KeysAscend blocks'.flatten := by
        have hall := h.ascend
        rw [hflat] at hall
        exact (pairwise_append.mp hall).2.1
      obtain ⟨taken, beyond, htaken, hsplit, hbeyond⟩ := hholds.span hasc hfirst
      rw [if_neg hne, if_neg hlen, candidates_eq key hidx (by omega), ok_bind]
      have hpick := pickBlocks_eq key asOf value htaken none
      rw [Option.map_none] at hpick
      rw [hpick, hbest, hsplit, best_append_left fun e he => (hbeyond e he).ne', best]

theorem Stores.getVersioned_eq (h : Stores crc t xxh64 records) (key : Key) (asOf : Nat) :
    t.getVersioned crc xxh64 key asOf =
      .ok ((best records key asOf).map fun e => (e.seq, e.value)) := by
  rw [Table.getVersioned, h.lookup_eq]
  congr 2
  funext e
  rw [picked, entry_decoded]

/-- A put, as the existence check sees it. -/
def isPut : MemtableValue → Bool
  | .put _ => true
  | .tombstone => false

theorem Stores.containsVersioned_eq (h : Stores crc t xxh64 records) (key : Key) (asOf : Nat) :
    t.containsVersioned crc xxh64 key asOf =
      .ok ((best records key asOf).map fun e => isPut e.value) := by
  have hop : ∀ e : Entry, decide ((decoded e).op = Sst.opPut) = isPut e.value := by
    rintro ⟨key, seq, value⟩
    cases value <;> rfl
  rw [Table.containsVersioned, h.lookup_eq, ok_bind, Option.map_map]
  congr 2
  funext e
  exact hop e

/-! ## Scans -/

/-- The record is between the bounds. -/
def inBounds (start stop : Bound Key) (e : Entry) : Bool :=
  decide (start.admitsStart e.key ∧ stop.admitsEnd e.key)

theorem not_admitsEnd_of_le {a b : Key} (hle : a ≤ b)
    (h : ¬stop.admitsEnd a) : ¬stop.admitsEnd b := by
  cases stop with
  | included k => exact fun hb => h (hle.trans hb)
  | excluded k => exact fun hb => h (hle.trans_lt hb)
  | unbounded => exact absurd trivial h

/-- What the records left of the current block say about the records left in all; `more`
are those of the blocks behind. -/
theorem blockStep_cases (start stop : Bound Key) : ∀ (current more : List Entry),
    KeysAscend (current ++ more) →
    (∃ e rest, blockStep start stop (current.map decoded) = .found (decoded e) (rest.map decoded) ∧
      (current ++ more).filter (inBounds start stop) =
        e :: (rest ++ more).filter (inBounds start stop) ∧ KeysAscend (rest ++ more)) ∨
    (blockStep start stop (current.map decoded) = .pastEnd ∧
      (current ++ more).filter (inBounds start stop) = []) ∨
    (blockStep start stop (current.map decoded) = .exhausted ∧
      (current ++ more).filter (inBounds start stop) = more.filter (inBounds start stop)) := by
  intro current more hasc
  induction current with
  | nil => exact .inr (.inr ⟨rfl, rfl⟩)
  | cons e current ih =>
    obtain ⟨hfirst, hrest⟩ := pairwise_cons.mp hasc
    rw [map_cons, cons_append, blockStep, key_decoded]
    by_cases hstart : start.admitsStart e.key
    · rw [if_neg (not_not.mpr hstart)]
      by_cases hstop : stop.admitsEnd e.key
      · refine .inl ⟨e, current, if_neg (not_not.mpr hstop), ?_, hrest⟩
        exact filter_cons_of_pos (decide_eq_true ⟨hstart, hstop⟩)
      · -- nothing behind a key past the end can be before it
        refine .inr (.inl ⟨if_pos hstop, ?_⟩)
        rw [filter_eq_nil_iff]
        intro x hx hin
        have hle : e.key ≤ x.key := by
          rcases mem_cons.mp hx with rfl | hx
          · exact le_refl _
          · exact hfirst x hx
        exact not_admitsEnd_of_le hle hstop (of_decide_eq_true hin).2
    · have hout : ¬inBounds start stop e = true := fun hin => hstart (of_decide_eq_true hin).1
      rw [if_pos hstart, filter_cons_of_neg hout]
      exact ih hrest

/-- The cursor has exactly these records still to yield. -/
inductive Remaining (crc : Bytes → UInt32) (t : Table) : Cursor → List Entry → Prop where
  | done {c : Cursor} : c.done = true → Remaining crc t c []
  | going {c : Cursor} {current : List Entry} {blocks : List (List Entry)} :
      c.done = false → c.current = current.map decoded → Indexes crc t c.blocks blocks →
      KeysAscend (current ++ blocks.flatten) →
      Remaining crc t c ((current ++ blocks.flatten).filter (inBounds c.start c.stop))

/-- `next` has taken the first of the records left, if there was one. -/
def TakesFirst (crc : Bytes → UInt32) (t : Table) (left : List Entry)
    (result : Result (Item Entry × Cursor)) : Prop :=
  ∃ item c', result = .ok (item, c') ∧ item = left.head?.map .ok ∧ Remaining crc t c' left.tail

section Advance

variable {start : Bound Key} {current : List DecodedRecord}

theorem advance_found {r : DecodedRecord} {rest : List DecodedRecord}
    (h : blockStep start stop current = .found r rest) :
    t.advance crc start stop entries current =
      .ok (some (.ok r.entry), ⟨start, stop, entries, rest, false⟩) := by
  unfold Table.advance
  rw [h]

theorem advance_pastEnd (h : blockStep start stop current = .pastEnd) :
    t.advance crc start stop entries current = .ok (none, ⟨start, stop, entries, [], true⟩) := by
  unfold Table.advance
  rw [h]

theorem advance_last (h : blockStep start stop current = .exhausted) :
    t.advance crc start stop [] current = .ok (none, ⟨start, stop, [], [], true⟩) := by
  unfold Table.advance
  rw [h]

theorem advance_refill {entry : IndexEntry} {records : List DecodedRecord}
    (h : blockStep start stop current = .exhausted) (hread : t.readBlock crc entry = .ok records) :
    t.advance crc start stop (entry :: entries) current =
      t.advance crc start stop entries records := by
  rw [Table.advance, h]
  rw [hread]

end Advance

theorem advance_takes (start stop : Bound Key) (h : Indexes crc t entries blocks) :
    ∀ {current : List Entry}, KeysAscend (current ++ blocks.flatten) →
      TakesFirst crc t ((current ++ blocks.flatten).filter (inBounds start stop))
        (t.advance crc start stop entries (current.map decoded)) := by
  induction h with
  | nil =>
    intro current hasc
    rcases blockStep_cases start stop current [] hasc with
      ⟨e, rest, hstep, hleft, hrest⟩ | ⟨hstep, hleft⟩ | ⟨hstep, hleft⟩
    · rw [flatten_nil, hleft, advance_found hstep, entry_decoded]
      exact ⟨_, _, rfl, rfl, @Remaining.going crc t _ rest [] rfl rfl .nil hrest⟩
    · rw [flatten_nil, hleft, advance_pastEnd hstep]
      exact ⟨_, _, rfl, rfl, .done rfl⟩
    · rw [flatten_nil, hleft, advance_last hstep]
      exact ⟨_, _, rfl, rfl, .done rfl⟩
  | @cons entry block entries blocks hlead hrest ih =>
    intro current hasc
    rcases blockStep_cases start stop current _ hasc with
      ⟨e, rest, hstep, hleft, hasc'⟩ | ⟨hstep, hleft⟩ | ⟨hstep, hleft⟩
    · rw [hleft, advance_found hstep, entry_decoded]
      exact ⟨_, _, rfl, rfl, .going rfl rfl (.cons hlead hrest) hasc'⟩
    · rw [hleft, advance_pastEnd hstep]
      exact ⟨_, _, rfl, rfl, .done rfl⟩
    · rw [hleft, advance_refill hstep hlead.read]
      exact ih (pairwise_append.mp hasc).2.1

/-- **A step of a scan** yields the first record left and leaves the others. -/
theorem next_takes {c : Cursor} {left : List Entry} (h : Remaining crc t c left) :
    TakesFirst crc t left (t.next crc c) := by
  unfold Table.next
  cases h with
  | done hdone =>
    rw [if_pos hdone]
    exact ⟨_, _, rfl, rfl, .done hdone⟩
  | going hdone hcurrent hindex hasc =>
    rw [if_neg (by rw [hdone]; decide), hcurrent]
    exact advance_takes _ _ hindex hasc

/-- The scan yields exactly these records and ends. -/
inductive ScanYields (crc : Bytes → UInt32) (t : Table) : Cursor → List Entry → Prop where
  | stop {c c' : Cursor} : t.next crc c = .ok (none, c') → ScanYields crc t c []
  | more {c c' : Cursor} {e : Entry} {es : List Entry} :
      t.next crc c = .ok (some (.ok e), c') → ScanYields crc t c' es → ScanYields crc t c (e :: es)

/-- The whole scan, by induction on what is left. -/
theorem Remaining.yields {left : List Entry} {c : Cursor} (h : Remaining crc t c left) :
    ScanYields crc t c left := by
  induction left generalizing c with
  | nil =>
    obtain ⟨item, c', hnext, rfl, _⟩ := next_takes h
    exact .stop hnext
  | cons e es ih =>
    obtain ⟨item, c', hnext, rfl, hrest⟩ := next_takes h
    exact .more hnext (ih hrest)

/-- A cursor that starts at block `n` when everything before that block is out of bounds. -/
theorem Stores.remaining_from (h : Stores crc t xxh64 records) {start : Bound Key} (n : Nat)
    (skipped : List Entry) {blocks' : List (List Entry)}
    (hindex : Indexes crc t (t.index.drop n) blocks') (hflat : records = skipped ++ blocks'.flatten)
    (hskip : ∀ e ∈ skipped, ¬start.admitsStart e.key) :
    Remaining crc t ⟨start, stop, t.index.drop n, [], decide (t.index.length ≤ n)⟩
      (records.filter (inBounds start stop)) := by
  have hout : skipped.filter (inBounds start stop) = [] :=
    filter_eq_nil_iff.mpr fun e he hin => hskip e he (of_decide_eq_true hin).1
  have hasc := h.ascend
  rw [hflat] at hasc
  rw [hflat, filter_append, hout]
  by_cases hn : t.index.length ≤ n
  · rw [drop_eq_nil_of_le hn] at hindex ⊢
    cases hindex
    exact .done (decide_eq_true hn)
  · exact @Remaining.going crc t _ [] blocks' (decide_eq_false hn) rfl hindex
      (pairwise_append.mp hasc).2.1

/-- **A fresh cursor has the records between its bounds before it**: the blocks it leaves out
end before its start. -/
theorem Stores.remaining (h : Stores crc t xxh64 records) (start stop : Bound Key) :
    Remaining crc t (t.rangeScan start stop) (records.filter (inBounds start stop)) := by
  obtain ⟨blocks, hindex, hflat⟩ := h.blocks
  have hasc : KeysAscend blocks.flatten := hflat ▸ h.ascend
  cases start with
  | unbounded =>
    exact h.remaining_from 0 [] hindex hflat.symm (by simp)
  | included key =>
    obtain ⟨skipped, blocks', hholds, hsplit, hskip⟩ := hindex.skip hasc key
    rw [← drop_partitionPoint] at hholds
    exact h.remaining_from _ _ hholds (hflat ▸ hsplit) fun e he => not_le.mpr (hskip e he)
  | excluded key =>
    obtain ⟨skipped, blocks', hholds, hsplit, hskip⟩ := hindex.skip hasc key
    rw [← drop_partitionPoint] at hholds
    exact h.remaining_from _ _ hholds (hflat ▸ hsplit) fun e he => not_lt.mpr (hskip e he).le

end Tables

end RubixDb.Proof
