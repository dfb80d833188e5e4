import RubixDb.Proof.NotDistinct
import RubixDb.Proof.Rollback

/-!
# INSERT and the rows that were there

A row that conflicts with nothing under the statement's arbiters is written at its primary
key, whether or not a row is there. So a statement keeps every row that neither it nor a
referential action updates, and counts its insertions right, exactly when each row it takes
for a new one has a primary key that no visible row has and no row it decided on before
(`insert_keeps_iff`). With the primary key among the arbiters that is always so
(`insertsFresh_of_pkArbiter`); a statement that arbitrates on a unique index alone can
replace a row.
-/

namespace RubixDb.Proof

open Lib List

variable {shape : TableShape} {row proposed : Row} {key : Bytes} {db : Db} {tableId : Nat}
    {d d' : Deciding} {pending : Pending} {table : TableRow} {os : List Nat} {α : Type}

/-! ## Keys of decided rows -/

variable {mid : Txn}

/-- The key a row is stored at. -/
def rowKey (shape : TableShape) (row : Row) : Option Bytes :=
  (tupleOf row shape.table.pkOrdinals).bind fun pk => (encodeCompositeKey pk).toOption

theorem rowKey_eq_some :
    rowKey shape row = some key ↔
      ∃ pk, tupleOf row shape.table.pkOrdinals = some pk ∧ encodeCompositeKey pk = .ok key := by
  rw [rowKey, Option.bind_eq_some_iff]
  apply exists_congr
  intro pk
  cases encodeCompositeKey pk <;> simp [Except.toOption]

theorem PutSpec.rowKey {pk : List RelationalValue} (h : PutSpec db tableId row shape pk key) :
    Proof.rowKey shape row = some key :=
  rowKey_eq_some.mpr ⟨pk, extractPkValues_eq_ok.mp h.extracted, h.encoded⟩

/-- The keys of the rows that were taken for new. -/
def insertedKeys (shape : TableShape) (d : Deciding) : List Bytes :=
  (d.pending.rows.filter (·.old.isNone)).filterMap fun p => rowKey shape p.row

/-- The keys of the rows that a `DO UPDATE` action updated. -/
def updatedKeys (shape : TableShape) (d : Deciding) : List Bytes :=
  (d.pending.rows.filter (·.old.isSome)).filterMap fun p => rowKey shape p.row

/-! ## The statement's property and the condition -/

/-- The keys of the table with a row in `mid` and none in `tx`. -/
def newKeys (db : Db) (tableId : Nat) (tx mid : Txn) : List Bytes :=
  (mid.visibleKeys db tableId).filter fun k => (tx.visible db tableId k).isNone

/-- The row was there until a referential action changed it. -/
def Rewritten (db : Db) (mid tx' : Txn) (t : Nat) (k : Bytes) (row : Row) : Prop :=
  mid.visible db t k = some row ∧ tx'.visible db t k ≠ some row

/-- **Every visible row is kept, but for those updated, and the insertions are counted.** The
statement leads from `tx` to `tx'`, and its referential actions do from `mid` on. -/
structure InsertKeeps (db : Db) (tableId : Nat) (shape : TableShape) (tx mid tx' : Txn)
    (d : Deciding) : Prop where
  kept : ∀ t k row, tx.visible db t k = some row → tx'.visible db t k = some row ∨
    (t = tableId ∧ k ∈ updatedKeys shape d) ∨ Rewritten db mid tx' t k row
  /-- The new keys, without those an action moved a row to, but with those it moved one from. -/
  counted : d.outcome.inserted =
    ((newKeys db tableId tx tx').filter fun k => (mid.visible db tableId k).isSome).length +
      ((newKeys db tableId tx mid).filter fun k => (tx'.visible db tableId k).isNone).length

/-- The row's key is not seen in the transaction nor among the rows decided before. -/
def FreshKey (db : Db) (tx : Txn) (tableId : Nat) (shape : TableShape) (d : Deciding) (row : Row) :
    Prop :=
  ∀ key, rowKey shape row = some key → tx.visible db tableId key = none ∧
    ∀ p ∈ d.pending.rows, rowKey shape p.row ≠ some key

/-- Every proposed row without a conflict under the arbiters has a fresh key. -/
def InsertsFresh (db : Db) (tx : Txn) (ins : Insert) (shape : TableShape) :
    Deciding → List Row → Prop
  | _, [] => True
  | d, row :: rows =>
    (findHit db tx shape.table d.pending row (ins.arbiters shape.table) d.pending.byArbiter =
      .ok none → FreshKey db tx ins.tableId shape d row) ∧
    ∀ d', decideRow db tx ins shape (ins.arbiters shape.table) d row = .ok d' →
      InsertsFresh db tx ins shape d' rows

/-! ## One decision -/

section Decide

variable {db : Db} {tx : Txn} {ins : Insert} {shape : TableShape} {arbiters : List Arbiter}
    {map : AList fun _ : GroupingKey => Nat} {i : Nat} {existing : Row} {k : Bytes}

/-- What deciding one row adds: nothing, a new row, or an updated one. -/
inductive Decided (db : Db) (tx : Txn) (ins : Insert) (shape : TableShape)
    (arbiters : List Arbiter) (d : Deciding) (row : Row) : Deciding → Prop where
  | skipped : findHit db tx shape.table d.pending row arbiters d.pending.byArbiter ≠ .ok none →
      Decided db tx ins shape arbiters d row d.skip
  | inserted (pk : List RelationalValue) :
      findHit db tx shape.table d.pending row arbiters d.pending.byArbiter = .ok none →
      tupleOf row shape.table.pkOrdinals = some pk →
      Decided db tx ins shape arbiters d row ⟨d.pending.add pk row none true arbiters,
        { d.outcome with inserted := d.outcome.inserted + 1 }⟩
  | updated (oc : BoundOnConflict) (as : List Assignment)
      (sel : Option (Row → Row → Except SqlError Bool)) (pk : List RelationalValue)
      (existing new : Row) (write : Bool) :
      findHit db tx shape.table d.pending row arbiters d.pending.byArbiter =
        .ok (some (.committed pk existing)) →
      ins.onConflict = some oc → oc.action = .doUpdate as sel →
      assign existing row as existing = .ok new →
      Decided db tx ins shape arbiters d row ⟨d.pending.add pk new (some existing) write arbiters,
        { d.outcome with updated := d.outcome.updated + 1 }⟩

theorem pkValuesOf_ok {pk : List RelationalValue} {ordinals : List Nat}
    (h : pkValuesOf row ordinals = .ok pk) : tupleOf row ordinals = some pk := by
  rw [pkValuesOf] at h
  split at h
  · rename_i heq
    cases h
    exact heq
  · cases h

/-- Inversion of the decision about one row. -/
theorem decideRow_ok (h : decideRow db tx ins shape arbiters d row = .ok d') :
    Decided db tx ins shape arbiters d row d' := by
  obtain ⟨hit, hhit, h⟩ := bind_eq_ok.mp h
  cases hit with
  | none =>
    obtain ⟨pk, hpk, h⟩ := bind_eq_ok.mp h
    obtain ⟨_, -, h⟩ := bind_eq_ok.mp h
    cases h
    exact .inserted pk hhit (pkValuesOf_ok hpk)
  | some hit =>
    have hne : findHit db tx shape.table d.pending row arbiters d.pending.byArbiter ≠ .ok none := by
      rw [hhit]
      simp
    cases hoc : ins.onConflict with
    | none => rw [hoc] at h; cases h
    | some oc =>
      rw [hoc] at h
      dsimp only at h
      cases hact : oc.action with
      | doNothing =>
        rw [hact] at h
        cases h
        exact .skipped hne
      | doUpdate as sel =>
        rw [hact] at h
        cases hit with
        -- a second row of the statement may not update the first
        | pending => cases h
        | committed pk existing =>
          obtain ⟨selected, -, h⟩ := bind_eq_ok.mp h
          split at h
          · rw [Deciding.update] at h
            obtain ⟨new, hnew, h⟩ := bind_eq_ok.mp h
            obtain ⟨_, -, h⟩ := bind_eq_ok.mp h
            obtain ⟨_, -, h⟩ := bind_eq_ok.mp h
            cases h
            exact .updated oc as sel pk existing new _ hhit hoc hact hnew
          · cases h
            exact .skipped hne

@[simp] theorem rows_add (p : Pending) (pk : List RelationalValue) (row : Row) (old : Option Row)
    (write : Bool) (arbiters : List Arbiter) :
    (p.add pk row old write arbiters).rows = p.rows ++ [⟨row, old, write⟩] := rfl

@[simp] theorem byPk_add (p : Pending) (pk : List RelationalValue) (row : Row) (old : Option Row)
    (write : Bool) (arbiters : List Arbiter) :
    (p.add pk row old write arbiters).byPk = p.byPk.insert (pkKey pk) p.rows.length := rfl

/-! ## A found row has the key it was found by -/

theorem getRowSql_ok {pk : List RelationalValue} {r : Option Row}
    (h : getRowSql db tx tableId pk = .ok r) : tx.getRow db tableId pk = .ok r := by
  rw [getRowSql] at h
  split at h
  · rename_i heq
    cases h
    exact heq
  · cases h

theorem hitAmong_committed {ordinals : List Nat} {key : GroupingKey}
    {pks : List (List RelationalValue)} {pk : List RelationalValue}
    (h : hitAmong db tx tableId pending ordinals key pks = .ok (some (.committed pk row))) :
    tx.getRow db tableId pk = .ok (some row) := by
  induction pks with
  | nil => cases h
  | cons pk' pks ih =>
    rw [hitAmong] at h
    split at h
    · split at h
      · cases h
      · exact ih h
    · obtain ⟨r, hr, h⟩ := bind_eq_ok.mp h
      cases r with
      | none => exact ih h
      | some found =>
        cases h
        exact getRowSql_ok hr

theorem hitUnder_committed {arbiter : Arbiter} {pk : List RelationalValue}
    (h : hitUnder db tx table pending proposed arbiter map = .ok (some (.committed pk row))) :
    tx.getRow db table.tableId pk = .ok (some row) := by
  rw [hitUnder] at h
  split at h
  · obtain ⟨pk', -, h⟩ := bind_eq_ok.mp h
    split at h
    · cases h
    · obtain ⟨r, hr, h⟩ := bind_eq_ok.mp h
      cases r with
      | none => cases h
      | some found =>
        cases h
        exact getRowSql_ok hr
  · split at h
    · cases h
    · dsimp only at h
      split at h
      · cases h
      · obtain ⟨pks, -, h⟩ := bind_eq_ok.mp h
        exact hitAmong_committed h

theorem findHit_committed {pk : List RelationalValue} {arbiters : List Arbiter}
    {maps : List (AList fun _ : GroupingKey => Nat)}
    (h : findHit db tx table pending proposed arbiters maps = .ok (some (.committed pk row))) :
    tx.getRow db table.tableId pk = .ok (some row) := by
  induction arbiters generalizing maps with
  | nil => rw [findHit.eq_def] at h; cases h
  | cons a arbiters ih =>
    cases maps with
    | nil => rw [findHit.eq_def] at h; cases h
    | cons m maps =>
      obtain ⟨hit, hhit, h⟩ := bind_eq_ok.mp h
      cases hit with
      | none => exact ih h
      | some hit =>
        cases h
        exact hitUnder_committed hhit

/-! ## Assignments leave the key alone -/

theorem bindAssignments_pk {assignments : List (String × ConflictExpr)} :
    ∀ {seen : List String} {bound : List Assignment},
      bindAssignments shape assignments seen = .ok bound →
      ∀ a ∈ bound, a.ordinal ∉ shape.table.pkOrdinals := by
  induction assignments with
  | nil =>
    intro seen bound h
    cases h
    simp
  | cons x rest ih =>
    intro seen bound h
    rw [bindAssignments] at h
    split at h
    · cases h
    split at h
    · cases h
    split at h
    · cases h
    rename_i hpk
    split at h
    · cases h
    obtain ⟨more, hmore, h⟩ := bind_eq_ok.mp h
    cases h
    intro a ha
    rcases mem_cons.mp ha with rfl | ha
    · exact hpk
    · exact ih hmore a ha

/-- The clause went through the binder. -/
def Accepted (db : Db) (ins : Insert) (shape : TableShape) : Prop :=
  ∀ oc, ins.onConflict = some oc →
    ∃ target action, bindOnConflict shape (db.indexes ins.tableId) target action = .ok oc

theorem Accepted.pk (h : Accepted db ins shape) {oc : BoundOnConflict} {as : List Assignment}
    {sel : Option (Row → Row → Except SqlError Bool)} (hoc : ins.onConflict = some oc)
    (hact : oc.action = .doUpdate as sel) : ∀ a ∈ as, a.ordinal ∉ shape.table.pkOrdinals := by
  obtain ⟨target, action, hbind⟩ := h oc hoc
  obtain ⟨arbs, -, hbind⟩ := bind_eq_ok.mp hbind
  obtain ⟨bound, hbound, hbind⟩ := bind_eq_ok.mp hbind
  cases hbind
  cases hact
  cases action with
  | doNothing => cases hbound
  | doUpdate assignments selection =>
    cases assignments with
    | nil => cases hbound
    | cons x rest =>
      obtain ⟨bound, hassign, hbound⟩ := bind_eq_ok.mp hbound
      cases hbound
      exact bindAssignments_pk hassign

theorem tupleOf_set {v : Option RelationalValue}
    (hi : i ∉ os) : tupleOf (row.set i v) os = tupleOf row os := by
  rw [tupleOf, tupleOf]
  induction os with
  | nil => rfl
  | cons o os ih =>
    rw [mem_cons, not_or] at hi
    rw [mapM_cons, mapM_cons, ih hi.2, columnValue, columnValue,
      getElem?_set_ne hi.1]

theorem tupleOf_assign {excluded : Row} {as : List Assignment} {row new : Row}
    (has : ∀ a ∈ as, a.ordinal ∉ os) (h : assign existing excluded as row = .ok new) :
    tupleOf new os = tupleOf row os := by
  induction as generalizing row new with
  | nil =>
    cases h
    rfl
  | cons a as ih =>
    obtain ⟨value, -, h⟩ := bind_eq_ok.mp h
    split_ifs at h
    rw [ih (fun a ha => has a (mem_cons_of_mem _ ha)) h, tupleOf_set (has a (by simp))]

/-! ## What the decisions keep -/

/-- The invariant of the loop, whatever is proposed. -/
structure DecidingInv (db : Db) (tx : Txn) (tableId : Nat) (shape : TableShape) (d : Deciding) :
    Prop where
  written : ∀ p ∈ d.pending.rows, p.old = none → p.write = true
  /-- A row is updated where it is. -/
  updated : ∀ p ∈ d.pending.rows, p.old ≠ none →
    ∃ key, rowKey shape p.row = some key ∧ (tx.visible db tableId key).isSome
  counted : d.outcome.inserted = (d.pending.rows.filter (·.old.isNone)).length

theorem decidingInv_start (tableId : Nat) (arbiters : List Arbiter) :
    DecidingInv db tx tableId shape (.start arbiters) :=
  ⟨(by intro p hp; cases hp), (by intro p hp; cases hp), rfl⟩

/-- A new decision about one more row. -/
theorem DecidingInv.step {d d' : Deciding} {row : Row} (hok : Db.TableOk db ins.tableId shape)
    (hkeyed : Txn.Keyed db tx) (hacc : Accepted db ins shape)
    (hinv : DecidingInv db tx ins.tableId shape d)
    (h : Decided db tx ins shape arbiters d row d') : DecidingInv db tx ins.tableId shape d' := by
  cases h with
  | skipped _ => exact ⟨hinv.written, hinv.updated, hinv.counted⟩
  | inserted pk _ hpk =>
    refine ⟨?_, ?_, by simp [hinv.counted]⟩ <;> rw [rows_add, forall_mem_append,
      forall_mem_singleton]
    · exact ⟨hinv.written, fun _ => rfl⟩
    · exact ⟨hinv.updated, fun hold => absurd rfl hold⟩
  | updated oc as sel pk existing new write hhit hoc hact hnew =>
    refine ⟨?_, ?_, by simp [hinv.counted]⟩ <;> rw [rows_add, forall_mem_append,
      forall_mem_singleton]
    · exact ⟨hinv.written, nofun⟩
    · refine ⟨hinv.updated, fun _ => ?_⟩
      -- the row was read at its key, and no assignment is to a key column
      have hread := findHit_committed hhit
      rw [hok.id] at hread
      obtain ⟨key, hkey, hvis, hfound⟩ := getRow_ok hok hkeyed hread
      obtain ⟨pk', hpk', hkey'⟩ := hfound existing rfl
      refine ⟨key, rowKey_eq_some.mpr ⟨pk', ?_, hkey'⟩, by rw [← hvis]; rfl⟩
      rw [tupleOf_assign (hacc.pk hoc hact) hnew, hpk']

/-- A row that is not seen is a new one. -/
theorem DecidingInv.new_of_unseen (hinv : DecidingInv db tx tableId shape d) {p : PendingRow}
    (hp : p ∈ d.pending.rows) (hk : rowKey shape p.row = some k)
    (hnone : tx.visible db tableId k = none) : p.old = none := by
  by_contra hold
  obtain ⟨k', hk', hseen⟩ := hinv.updated p hp hold
  rw [Option.some.inj (hk'.symm.trans hk), hnone] at hseen
  cases hseen

theorem mem_insertedKeys : k ∈ insertedKeys shape d ↔
    ∃ p ∈ d.pending.rows, p.old = none ∧ rowKey shape p.row = some k := by
  simp [insertedKeys, and_assoc]

theorem Decided.rows (h : Decided db tx ins shape arbiters d row d') :
    ∃ more, d'.pending.rows = d.pending.rows ++ more := by
  cases h with
  | skipped _ => exact ⟨[], (append_nil _).symm⟩
  | inserted pk _ _ => exact ⟨_, rfl⟩
  | updated oc as sel pk existing new write _ _ _ _ => exact ⟨_, rfl⟩

/-- Decisions stand. -/
theorem decideRows_rows {rows : List Row} {d e : Deciding}
    (h : decideRows db tx ins shape arbiters d rows = .ok e) :
    ∃ more, e.pending.rows = d.pending.rows ++ more := by
  induction rows generalizing d e with
  | nil =>
    cases h
    exact ⟨[], (append_nil _).symm⟩
  | cons row rows ih =>
    obtain ⟨d', hd', h⟩ := bind_eq_ok.mp h
    obtain ⟨m, hm⟩ := (decideRow_ok hd').rows
    obtain ⟨m', hm'⟩ := ih h
    exact ⟨m ++ m', by rw [hm', hm, append_assoc]⟩

theorem decideRows_inv (hok : Db.TableOk db ins.tableId shape) (hkeyed : Txn.Keyed db tx)
    (hacc : Accepted db ins shape) {rows : List Row} {d e : Deciding}
    (hinv : DecidingInv db tx ins.tableId shape d)
    (h : decideRows db tx ins shape arbiters d rows = .ok e) :
    DecidingInv db tx ins.tableId shape e := by
  induction rows generalizing d e with
  | nil =>
    cases h
    exact hinv
  | cons row rows ih =>
    obtain ⟨d', hd', h⟩ := bind_eq_ok.mp h
    exact ih (hinv.step hok hkeyed hacc (decideRow_ok hd')) h

/-! ## Fresh keys -/

/-- The rows taken for new have keys of their own that are not seen. -/
def NewKeysFresh (db : Db) (tx : Txn) (tableId : Nat) (shape : TableShape) (d : Deciding) : Prop :=
  (insertedKeys shape d).Nodup ∧ ∀ k ∈ insertedKeys shape d, tx.visible db tableId k = none

theorem NewKeysFresh.of_append {e : Deciding} {more : List PendingRow}
    (hrows : e.pending.rows = d.pending.rows ++ more) (h : NewKeysFresh db tx tableId shape e) :
    NewKeysFresh db tx tableId shape d := by
  have hkeys : insertedKeys shape e = insertedKeys shape d ++
      (more.filter (·.old.isNone)).filterMap fun p => rowKey shape p.row := by
    rw [insertedKeys, hrows, filter_append, filterMap_append]
    rfl
  rw [NewKeysFresh, hkeys] at h
  exact ⟨(nodup_append.mp h.1).1, fun k hk => h.2 k (mem_append_left _ hk)⟩

/-- One more new row is fresh or not. -/
theorem newKeysFresh_insert {tableId : Nat} {d : Deciding} {row : Row} {pk : List RelationalValue}
    {key : Bytes} {outcome : InsertOutcome} (hinv : DecidingInv db tx tableId shape d)
    (hkey : rowKey shape row = some key) (hd : NewKeysFresh db tx tableId shape d) :
    NewKeysFresh db tx tableId shape ⟨d.pending.add pk row none true arbiters, outcome⟩ ↔
      FreshKey db tx tableId shape d row := by
  have hkeys : insertedKeys shape ⟨d.pending.add pk row none true arbiters, outcome⟩ =
      insertedKeys shape d ++ [key] := by
    simp [hkey, insertedKeys]
  rw [NewKeysFresh, hkeys]
  constructor
  · rintro ⟨hnodup, hunseen⟩ k hk
    obtain rfl := Option.some.inj (hkey.symm.trans hk)
    have hnone := hunseen key (by simp)
    refine ⟨hnone, fun p hp hpkey => ?_⟩
    have hmem := mem_insertedKeys.mpr ⟨p, hp, hinv.new_of_unseen hp hpkey hnone, hpkey⟩
    exact (nodup_append.mp hnodup).2.2 key hmem key (by simp) rfl
  · intro hfresh
    obtain ⟨hnone, hother⟩ := hfresh key hkey
    rw [forall_mem_append, forall_mem_singleton]
    refine ⟨nodup_append.mpr ⟨hd.1, by simp, ?_⟩, hd.2, hnone⟩
    intro a ha b hb hab
    obtain ⟨p, hp, -, hpkey⟩ := mem_insertedKeys.mp ha
    exact hother p hp (by rw [hpkey, hab, mem_singleton.mp hb])

theorem newKeysFresh_update {pk : List RelationalValue} {new : Row} {write : Bool}
    {outcome : InsertOutcome} (hd : NewKeysFresh db tx tableId shape d) :
    NewKeysFresh db tx tableId shape
      ⟨d.pending.add pk new (some existing) write arbiters, outcome⟩ := by
  have hsame : insertedKeys shape ⟨d.pending.add pk new (some existing) write arbiters, outcome⟩ =
      insertedKeys shape d := by
    simp [insertedKeys]
  rw [NewKeysFresh, hsame]
  exact hd

/-- **The condition, read off the rows that were decided on.** The rows that are written
have keys; a decision that is not fresh stays so to the end. -/
theorem insertsFresh_iff (hok : Db.TableOk db ins.tableId shape) (hkeyed : Txn.Keyed db tx)
    (hacc : Accepted db ins shape) {rows : List Row} {d e : Deciding}
    (hinv : DecidingInv db tx ins.tableId shape d) (hd : NewKeysFresh db tx ins.tableId shape d)
    (h : decideRows db tx ins shape (ins.arbiters shape.table) d rows = .ok e)
    (hkeys : ∀ p ∈ e.pending.rows, p.write = true → (rowKey shape p.row).isSome) :
    InsertsFresh db tx ins shape d rows ↔ NewKeysFresh db tx ins.tableId shape e := by
  induction rows generalizing d e with
  | nil =>
    cases h
    exact ⟨fun _ => hd, fun _ => trivial⟩
  | cons row rows ih =>
    obtain ⟨d', hd', h⟩ := bind_eq_ok.mp h
    have hdec := decideRow_ok hd'
    have hinv' := hinv.step hok hkeyed hacc hdec
    -- the row is decided in one way only
    have honly : (∀ x, decideRow db tx ins shape (ins.arbiters shape.table) d row = .ok x →
        InsertsFresh db tx ins shape x rows) ↔ InsertsFresh db tx ins shape d' rows := by
      refine ⟨fun hall => hall d' hd', fun hfresh x hx => ?_⟩
      rwa [← Except.ok.inj (hd'.symm.trans hx)]
    rw [InsertsFresh, honly]
    obtain ⟨more, hmore⟩ := decideRows_rows h
    cases hdec with
    | skipped hne =>
      rw [← ih hinv' hd h hkeys]
      exact and_iff_right fun hnone => absurd hnone hne
    | inserted pk hnone hpk =>
      have hmem : (⟨row, none, true⟩ : PendingRow) ∈ e.pending.rows := by
        rw [hmore]
        simp
      obtain ⟨key, hkey⟩ := Option.isSome_iff_exists.mp (hkeys _ hmem rfl)
      have hstep := @newKeysFresh_insert db tx shape (ins.arbiters shape.table) ins.tableId d row
        pk key { d.outcome with inserted := d.outcome.inserted + 1 } hinv hkey hd
      by_cases hfresh : FreshKey db tx ins.tableId shape d row
      · rw [← ih hinv' (hstep.mpr hfresh) h hkeys]
        exact and_iff_right fun _ => hfresh
      · constructor
        · intro hboth; exact absurd (hboth.1 hnone) hfresh
        · intro he; exact absurd (hstep.mp (he.of_append hmore)) hfresh
    | updated oc as sel pk existing new write hhit _ _ _ =>
      rw [← ih hinv' (newKeysFresh_update hd) h hkeys]
      refine and_iff_right fun hnone => ?_
      rw [hhit] at hnone
      cases hnone

/-! ## Writing the decided rows -/

/-- What the transaction sees once rows were put: at their keys a row, elsewhere what it
saw. -/
structure PutsSeen (db : Db) (tableId : Nat) (shape : TableShape) (rows : List Row)
    (tx mid : Txn) : Prop where
  valid : ∀ row ∈ rows, validateRowShape shape.table shape.columns row = .ok ()
  keys : ∀ row ∈ rows, (rowKey shape row).isSome
  seen : ∀ row ∈ rows, ∀ k, rowKey shape row = some k → (mid.visible db tableId k).isSome
  other : ∀ t k, (t = tableId → ∀ row ∈ rows, rowKey shape row ≠ some k) →
    mid.visible db t k = tx.visible db t k

/-- What a transaction shows once the rows are put. -/
theorem putRows_ok (hshape : db.shape tableId = some shape) {rows : List Row} {tx mid : Txn}
    {u : Unit} (h : putRows db tableId rows tx = .ok u mid) :
    PutsSeen db tableId shape rows tx mid := by
  induction rows generalizing tx mid u with
  | nil =>
    obtain ⟨-, rfl⟩ := estate_pure_eq_ok.mp h
    exact ⟨by simp, by simp, by simp, fun _ _ _ => rfl⟩
  | cons row rows ih =>
    obtain ⟨_, tx₁, hput, h⟩ := estate_bind_eq_ok.mp h
    obtain ⟨shape', pk, key, hspec, hwrites⟩ := putRow_ok hput
    have hresolved := hspec.resolved
    rw [hshape] at hresolved
    cases hresolved
    have hrest := ih h
    have hkey := hspec.rowKey
    refine ⟨forall_mem_cons.mpr ⟨hspec.valid, hrest.valid⟩,
      forall_mem_cons.mpr ⟨by rw [hkey]; rfl, hrest.keys⟩, ?_, ?_⟩
    · intro r hr k hk
      by_cases hlater : ∃ r' ∈ rows, rowKey shape r' = some k
      · obtain ⟨r', hr', hk'⟩ := hlater
        exact hrest.seen r' hr' k hk'
      · -- nothing after it is put at the key
        rcases mem_cons.mp hr with rfl | hr
        · rw [hkey] at hk
          cases hk
          rw [hrest.other tableId key fun _ r' hr' hk' => hlater ⟨r', hr', hk'⟩,
            visible_of_put hwrites, if_pos ⟨rfl, rfl⟩]
          rfl
        · exact absurd ⟨r, hr, hk⟩ hlater
    · intro t k hk
      rw [hrest.other t k fun ht r hr => hk ht r (mem_cons_of_mem _ hr),
        visible_of_put hwrites, if_neg]
      rintro ⟨ht, rfl⟩
      exact hk ht row (by simp) hkey

/-- Counting without repetition and only what satisfies `p`. -/
theorem length_eq_iff_nodup [DecidableEq α] {l m : List α} {p : α → Prop} [DecidablePred p]
    (hm : m.Nodup) (hmem : ∀ a, a ∈ m ↔ a ∈ l ∧ p a) :
    l.length = m.length ↔ l.Nodup ∧ ∀ a ∈ l, p a := by
  have hperm : m.Perm (l.filter p).dedup := by
    refine (perm_ext_iff_of_nodup hm (nodup_dedup _)).mpr fun a => ?_
    rw [mem_dedup, mem_filter, hmem, decide_eq_true_iff]
  have hdedup : (l.filter p).dedup.length ≤ (l.filter p).length :=
    (dedup_sublist _).length_le
  have hfilter : (l.filter p).length ≤ l.length := length_filter_le _ _
  rw [hperm.length_eq]
  constructor
  · intro hlen
    have hall : l.filter p = l :=
      filter_sublist.eq_of_length (by omega)
    rw [hall] at hlen
    have hself : l.dedup = l := (dedup_sublist _).eq_of_length hlen.symm
    exact ⟨dedup_eq_self.mp hself, fun a ha => by simpa using filter_eq_self.mp hall a ha⟩
  · rintro ⟨hnodup, hall⟩
    rw [filter_eq_self.mpr (by simpa using hall), List.Nodup.dedup hnodup]

theorem mem_newKeys {tx tx' : Txn} : k ∈ newKeys db tableId tx tx' ↔
    (tx'.visible db tableId k).isSome ∧ tx.visible db tableId k = none := by
  rw [newKeys, mem_filter, mem_visibleKeys, Option.isNone_iff_eq_none]

theorem nodup_newKeys (db : Db) (tableId : Nat) (tx tx' : Txn) :
    (newKeys db tableId tx tx').Nodup :=
  (nodup_visibleKeys db tx' tableId).filter _

/-- A key that was new before the referential actions is new behind them or lost its row. -/
theorem length_newKeys (db : Db) (tableId : Nat) (tx mid tx' : Txn) :
    (newKeys db tableId tx mid).length =
      ((newKeys db tableId tx tx').filter fun k => (mid.visible db tableId k).isSome).length +
        ((newKeys db tableId tx mid).filter fun k => (tx'.visible db tableId k).isNone).length := by
  have hsame : ((newKeys db tableId tx mid).filter fun k => (tx'.visible db tableId k).isSome).Perm
      ((newKeys db tableId tx tx').filter fun k => (mid.visible db tableId k).isSome) := by
    refine (perm_ext_iff_of_nodup ((nodup_newKeys db tableId tx mid).filter _)
      ((nodup_newKeys db tableId tx tx').filter _)).mpr fun k => ?_
    simp only [mem_filter, mem_newKeys]
    tauto
  rw [length_eq_length_filter_add fun k => (tx'.visible db tableId k).isSome, hsame.length_eq]
  simp

/-- **The rows and the count are right exactly when the new rows' keys are fresh.** -/
theorem insertKeeps_iff_newKeysFresh (hinv : DecidingInv db tx ins.tableId shape d)
    (hputs : PutsSeen db ins.tableId shape (d.writes.map (·.row)) tx mid) (tx' : Txn) :
    InsertKeeps db ins.tableId shape tx mid tx' d ↔ NewKeysFresh db tx ins.tableId shape d := by
  -- a row that is written is a new row or an updated one
  have hwritten : ∀ p ∈ d.pending.rows, p.old = none → p.row ∈ d.writes.map (·.row) := by
    intro p hp hold
    exact mem_map.mpr ⟨p, mem_filter.mpr ⟨hp, hinv.written p hp hold⟩, rfl⟩
  have hkey : ∀ p ∈ d.pending.rows.filter (·.old.isNone), (rowKey shape p.row).isSome := by
    intro p hp
    obtain ⟨hp, hold⟩ := mem_filter.mp hp
    exact hputs.keys _ (hwritten p hp (Option.isNone_iff_eq_none.mp hold))
  have hlen : (insertedKeys shape d).length = d.outcome.inserted := by
    rw [hinv.counted, insertedKeys, filterMap_length_eq_length.mpr hkey]
  have hmem : ∀ k, k ∈ newKeys db ins.tableId tx mid ↔
      k ∈ insertedKeys shape d ∧ tx.visible db ins.tableId k = none := by
    intro k
    rw [mem_newKeys]
    constructor
    · rintro ⟨hseen, hnone⟩
      refine ⟨?_, hnone⟩
      by_contra hnot
      -- only an updated row could have been put there, and that was seen before
      rw [hputs.other ins.tableId k, hnone] at hseen
      · cases hseen
      · intro _ row hrow hk
        obtain ⟨p, hp, rfl⟩ := mem_map.mp hrow
        have hp' := (mem_filter.mp hp).1
        exact hnot (mem_insertedKeys.mpr ⟨p, hp', hinv.new_of_unseen hp' hk hnone, hk⟩)
    · rintro ⟨hk, hnone⟩
      obtain ⟨p, hp, hold, hpk⟩ := mem_insertedKeys.mp hk
      exact ⟨hputs.seen _ (hwritten p hp hold) k hpk, hnone⟩
  have hcount := length_eq_iff_nodup (nodup_newKeys db ins.tableId tx mid) hmem
  rw [hlen, length_newKeys db ins.tableId tx mid tx'] at hcount
  constructor
  · intro h
    exact hcount.mp h.counted
  · intro h
    refine ⟨?_, hcount.mpr h⟩
    intro t k row hrow
    by_cases hput : t = ins.tableId ∧ ∃ r ∈ d.writes.map (·.row), rowKey shape r = some k
    · obtain ⟨rfl, r, hr, hk⟩ := hput
      obtain ⟨p, hp, rfl⟩ := mem_map.mp hr
      have hp' := (mem_filter.mp hp).1
      by_cases hold : p.old = none
      · -- a new row at a key that is seen
        have hnone := h.2 k (mem_insertedKeys.mpr ⟨p, hp', hold, hk⟩)
        rw [hrow] at hnone
        cases hnone
      · exact .inr (.inl ⟨rfl, mem_filterMap.mpr ⟨p, mem_filter.mpr
          ⟨hp', Option.isSome_iff_ne_none.mpr hold⟩, hk⟩⟩)
    · -- the statement's own rows leave it alone
      have hmid := hputs.other t k fun ht r hr hk => hput ⟨ht, r, hr, hk⟩
      by_cases hlast : tx'.visible db t k = some row
      · exact .inl hlast
      · exact .inr (.inr ⟨hmid.trans hrow, hlast⟩)

/-! ## With the primary key among the arbiters -/

/-- Accepted rows hold values of the same types in the same columns. -/
theorem valueTypes_eq {r r' : Row} (hcols : ∀ o ∈ os, ∃ c ∈ shape.columns, c.ordinal = o)
    (hr : validateRowShape shape.table shape.columns r = .ok ())
    (hr' : validateRowShape shape.table shape.columns r' = .ok ())
    {vs ws : List RelationalValue} (hv : tupleOf r os = some vs) (hw : tupleOf r' os = some ws) :
    vs.map RelationalValue.valueType = ws.map RelationalValue.valueType := by
  rw [tupleOf_eq_some_iff] at hv hw
  induction os generalizing vs ws with
  | nil =>
    rw [map_eq_nil_iff.mp hv.symm, map_eq_nil_iff.mp hw.symm]
  | cons o os ih =>
    obtain ⟨v, vs, rfl, hv₀, hvs⟩ := map_eq_cons_iff.mp hv.symm
    obtain ⟨w, ws, rfl, hw₀, hws⟩ := map_eq_cons_iff.mp hw.symm
    -- both values were accepted for one column
    obtain ⟨c, hc, rfl⟩ := hcols o (by simp)
    have htype : ∀ {row : Row} {x : RelationalValue},
        validateRowShape shape.table shape.columns row = .ok () →
        columnValue row c.ordinal = some x → relationalTypeFromColumn c = .ok x.valueType := by
      intro row x hrow hx
      obtain ⟨hget, hfield⟩ := (validateRowShape_ok hrow).2 c hc
      rw [columnValue, hget, Option.join_some] at hx
      rw [hx] at hfield
      exact validateField_type hfield
    have heq : v.valueType = w.valueType :=
      Except.ok.inj ((htype hr hv₀.symm).symm.trans (htype hr' hw₀.symm))
    rw [map_cons, map_cons, heq,
      ih (fun o ho => hcols o (mem_cons_of_mem _ ho)) hvs.symm hws.symm]

theorem pkKey_eq {as bs : List RelationalValue}
    (h : List.Forall₂ (fun a b => a.same b = true) as bs) : pkKey as = pkKey bs := by
  induction h with
  | nil => rfl
  | cons hab _ ih =>
    rw [pkKey, pkKey, map_cons, ((same_iff _ _).mp hab).1]
    exact congrArg _ ih

/-- What the maps of the pending rows know of the primary key. -/
structure PkInv (shape : TableShape) (arbiters : List Arbiter) (d : Deciding) : Prop where
  maps : d.pending.byArbiter.length = arbiters.length
  known : ∀ p ∈ d.pending.rows, p.old = none → ∀ pk,
    tupleOf p.row shape.table.pkOrdinals = some pk → (d.pending.byPk.lookup (pkKey pk)).isSome

theorem pkInv_start (arbiters : List Arbiter) : PkInv shape arbiters (.start arbiters) :=
  ⟨by simp [Deciding.start, Pending.new], (by intro p hp; cases hp)⟩

theorem lookup_insert_isSome {k k' : GroupingKey}
    (h : (map.lookup k).isSome) : ((map.insert k' i).lookup k).isSome := by
  by_cases hk : k = k'
  · subst hk
    rw [AList.lookup_insert]
    rfl
  · rw [AList.lookup_insert_ne hk]
    exact h

theorem PkInv.step {d d' : Deciding} {row : Row} (hinv : PkInv shape arbiters d)
    (h : Decided db tx ins shape arbiters d row d') : PkInv shape arbiters d' := by
  have hzip : ∀ (r : Row) (i : Nat),
      (List.zipWith (addToArbiter r i) arbiters d.pending.byArbiter).length = arbiters.length := by
    intro r i
    rw [length_zipWith, hinv.maps, Nat.min_self]
  cases h with
  | skipped _ => exact ⟨hinv.maps, hinv.known⟩
  | inserted pk _ hpk =>
    refine ⟨hzip _ _, forall_mem_append.mpr
      ⟨fun p hp hold pk' hpk' => lookup_insert_isSome (hinv.known p hp hold pk' hpk'), ?_⟩⟩
    rw [forall_mem_singleton]
    intro _ pk' hpk'
    rw [Option.some.inj (hpk'.symm.trans hpk), byPk_add, AList.lookup_insert]
    rfl
  | updated oc as sel pk existing new write _ _ _ _ =>
    refine ⟨hzip _ _, forall_mem_append.mpr
      ⟨fun p hp hold pk' hpk' => lookup_insert_isSome (hinv.known p hp hold pk' hpk'), ?_⟩⟩
    nofun

theorem findHit_none {a : Arbiter} {arbiters : List Arbiter}
    {maps : List (AList fun _ : GroupingKey => Nat)} (hlen : maps.length = arbiters.length)
    (ha : a ∈ arbiters) :
    findHit db tx table pending proposed arbiters maps = .ok none →
      ∃ map, hitUnder db tx table pending proposed a map = .ok none := by
  induction arbiters generalizing maps with
  | nil => cases ha
  | cons b arbiters ih =>
    intro h
    cases maps with
    | nil => cases hlen
    | cons m maps =>
      obtain ⟨hit, hhit, h⟩ := bind_eq_ok.mp h
      cases hit with
      | some hit => cases h
      | none =>
        rcases mem_cons.mp ha with rfl | ha
        · exact ⟨m, hhit⟩
        · exact ih (by simpa using hlen) ha h

/-- No conflict on the primary key means a fresh key. -/
theorem freshKey_of_pkArbiter (hok : Db.TableOk db ins.tableId shape) (hkeyed : Txn.Keyed db tx)
    (hpk : pkArbiter shape.table ∈ arbiters) (hinv : DecidingInv db tx ins.tableId shape d)
    (hmaps : PkInv shape arbiters d)
    (hnone : findHit db tx shape.table d.pending row arbiters d.pending.byArbiter = .ok none)
    (hrow : validateRowShape shape.table shape.columns row = .ok ())
    (hvalid : ∀ p ∈ d.pending.rows, p.write = true →
      validateRowShape shape.table shape.columns p.row = .ok ()) :
    FreshKey db tx ins.tableId shape d row := by
  obtain ⟨map, hunder⟩ := findHit_none hmaps.maps hpk hnone
  obtain ⟨pk, hpkv, hunder⟩ := bind_eq_ok.mp hunder
  split at hunder
  · cases hunder
  rename_i hunknown
  obtain ⟨r, hr, hunder⟩ := bind_eq_ok.mp hunder
  cases r with
  | some found => cases hunder
  | none =>
    have htuple := pkValuesOf_ok hpkv
    have hread := getRowSql_ok hr
    rw [hok.id] at hread
    obtain ⟨key, hkey, hvis, -⟩ := getRow_ok hok hkeyed hread
    have hunseen : tx.visible db ins.tableId key = none := by
      rw [← Option.not_isSome_iff_eq_none, ← hvis]
      simp
    intro k hk
    obtain ⟨pk', hpk', hkey'⟩ := rowKey_eq_some.mp hk
    rw [htuple] at hpk'
    cases hpk'
    rw [hkey] at hkey'
    cases hkey'
    refine ⟨hunseen, fun p hp hpkey => ?_⟩
    -- a new row with this key would have been found among the pending ones
    have hold := hinv.new_of_unseen hp hpkey hunseen
    obtain ⟨pk₂, hpk₂, hkey₂⟩ := rowKey_eq_some.mp hpkey
    have htypes := valueTypes_eq hok.pkColumns (hvalid p hp (hinv.written p hp hold)) hrow
      hpk₂ htuple
    have hfound := hmaps.known p hp hold pk₂ hpk₂
    rw [pkKey_eq (same_of_encodeCompositeKey htypes hkey₂ hkey)] at hfound
    exact hunknown hfound

/-- **With the primary key among the arbiters, new rows are new.** -/
theorem insertsFresh_of_pkArbiter (hok : Db.TableOk db ins.tableId shape) (hkeyed : Txn.Keyed db tx)
    (hacc : Accepted db ins shape) (hpk : pkArbiter shape.table ∈ ins.arbiters shape.table)
    {rows : List Row} {d e : Deciding} (hinv : DecidingInv db tx ins.tableId shape d)
    (hmaps : PkInv shape (ins.arbiters shape.table) d)
    (h : decideRows db tx ins shape (ins.arbiters shape.table) d rows = .ok e)
    (hvalid : ∀ p ∈ e.pending.rows, p.write = true →
      validateRowShape shape.table shape.columns p.row = .ok ()) :
    InsertsFresh db tx ins shape d rows := by
  induction rows generalizing d e with
  | nil => exact trivial
  | cons row rows ih =>
    obtain ⟨d', hd', h⟩ := bind_eq_ok.mp h
    have hdec := decideRow_ok hd'
    obtain ⟨more, hmore⟩ := decideRows_rows h
    obtain ⟨added, hadded⟩ := hdec.rows
    have hbefore : ∀ p ∈ d.pending.rows, p ∈ e.pending.rows := fun p hp => by
      rw [hmore, hadded]
      simp [hp]
    refine ⟨fun hnone => ?_, fun x hx => ?_⟩
    · refine freshKey_of_pkArbiter hok hkeyed hpk hinv hmaps hnone ?_ fun p hp =>
        hvalid p (hbefore p hp)
      cases hdec with
      | skipped hne => exact absurd hnone hne
      | inserted pk _ _ => exact hvalid ⟨row, none, true⟩ (by rw [hmore]; simp) rfl
      | updated oc as sel pk existing new write hhit _ _ _ => rw [hhit] at hnone; cases hnone
    · obtain rfl := Except.ok.inj (hd'.symm.trans hx)
      exact ih (hinv.step hok hkeyed hacc hdec) (hmaps.step hdec) h hvalid

end Decide

/-! ## The rest of the statement -/

section Rest

variable {db : Db} {tx tx' : Txn} {ins : Insert}

theorem liftSql_bind_eq_ok {β : Type} {x : Except SqlError α} {f : α → SqlM β} {s u : Txn} {b : β} :
    (liftSql x >>= f) s = .ok b u ↔ ∃ a, x = .ok a ∧ f a s = .ok b u := by
  constructor
  · intro h
    cases x with
    | error e => cases h
    | ok a => exact ⟨a, rfl, h⟩
  · rintro ⟨a, rfl, h⟩
    exact h

theorem ofTxn_eq_ok {call : TxnM α} {a : α} : ofTxn call tx = .ok a tx' ↔ call tx = .ok a tx' := by
  rw [ofTxn]
  cases call tx with
  | error e t => constructor <;> intro h <;> cases h
  | ok b t => simp

/-- The check of the referencing keys only reads. -/
theorem checkAllReferencing_eq {changes : List RowChange} {fks : List ForeignKeyRow} {u : Unit}
    (h : checkAllReferencing db changes fks tx = .ok u tx') : tx' = tx := by
  have hsame : Composes fun _ x => Leads (fun s t : Txn => t = s) x :=
    .leads (fun _ => rfl) fun h h' => h'.trans h
  have hleads : Leads _ (checkAllReferencing db changes fks) :=
    hsame.checkAllReferencing changes fks
  have hsame := hleads tx
  rwa [h] at hsame

theorem enforceAllReferenced_eq {next : Nat → List RowChange → TxnM (List CascadedWrite)}
    {changes : List RowChange} {fks : List ForeignKeyRow} {written : List CascadedWrite}
    (hmoved : ∀ fk ∈ fks, changes.filterMap (movedKey fk) = [])
    (h : enforceAllReferenced db next changes fks tx = .ok written tx') : tx' = tx := by
  induction fks generalizing written with
  | nil => exact (estate_pure_eq_ok.mp h).2.symm
  | cons fk fks ih =>
    obtain ⟨_, t, hfk, h⟩ := estate_bind_eq_ok.mp h
    rw [enforceReferenced, hmoved fk (by simp)] at hfk
    obtain ⟨-, rfl⟩ := estate_pure_eq_ok.mp hfk
    obtain ⟨rest, t', hrest, h⟩ := estate_bind_eq_ok.mp h
    obtain ⟨-, rfl⟩ := estate_pure_eq_ok.mp h
    exact ih (fun fk hfk => hmoved fk (mem_cons_of_mem _ hfk)) hrest

/-- **Referential actions start from moved keys**: when no referenced key was moved the
enforcement writes nothing. -/
theorem enforceForeignKeys_eq {changes : List RowChange} {written : List CascadedWrite}
    (hmoved : ∀ fk ∈ db.foreignKeys, fk.parentTableId = tableId →
      changes.filterMap (movedKey fk) = [])
    (h : enforceForeignKeys db tableId changes tx = .ok written tx') : tx' = tx := by
  rw [enforceForeignKeys] at h
  split at h
  · exact (estate_pure_eq_ok.mp h).2.symm
  · rw [enforceInner] at h
    obtain ⟨_, t, hcheck, hrest⟩ := estate_bind_eq_ok.mp h
    rw [checkAllReferencing_eq hcheck] at hrest
    refine enforceAllReferenced_eq ?_ hrest
    intro fk hfk
    obtain ⟨hfk, hparent⟩ := mem_filter.mp hfk
    exact hmoved fk hfk (by simpa using hparent)

theorem checkCascaded_eq {cascaded : List CascadedWrite} {tableIds : List Nat} {u : Unit}
    (h : checkCascaded ins cascaded tableIds tx = .ok u tx') : tx' = tx := by
  induction tableIds generalizing u with
  | nil => exact (estate_pure_eq_ok.mp h).2.symm
  | cons t ts ih =>
    obtain ⟨_, -, h⟩ := liftSql_bind_eq_ok.mp h
    exact ih h

end Rest

/-- The changes a statement hands to the enforcement. -/
def Deciding.changes (d : Deciding) : List RowChange :=
  d.writes.map fun p => RowChange.mk p.old (some p.row)

theorem insertRows_ok {ins : Insert} {tx : Txn} (h : insertRows db ins shape tx = .ok d mid) :
    decideRows db tx ins shape (ins.arbiters shape.table) (.start (ins.arbiters shape.table))
        ins.proposed = .ok d ∧
      putRows db ins.tableId (d.writes.map (·.row)) tx = .ok () mid := by
  obtain ⟨_, -, h⟩ := liftSql_bind_eq_ok.mp h
  obtain ⟨d', hd', h⟩ := liftSql_bind_eq_ok.mp h
  obtain ⟨_, -, h⟩ := liftSql_bind_eq_ok.mp h
  obtain ⟨_, t, hput, h⟩ := estate_bind_eq_ok.mp h
  obtain ⟨rfl, rfl⟩ := estate_pure_eq_ok.mp h
  exact ⟨hd', ofTxn_eq_ok.mp hput⟩

/-- A table of codes with a primary key and a unique column ... -/
def codesShape (t : Nat) : TableShape :=
  ⟨⟨t, [0], 1, .active⟩,
    [⟨t, 0, "id", 2, false, none, 1, none, none⟩, ⟨t, 1, "code", 2, true, none, 1, none, none⟩]⟩

/-- ... that holds the row `(1, 5)`, as does a table beside it, ... -/
def codesDb (foreignKeys : List ForeignKeyRow) : Db where
  shape t := if t = 1 ∨ t = 2 then some (codesShape t) else none
  indexes t := if t = 1 then [⟨1, 1, "codes_code_key", .unique, [1], .ready⟩] else []
  foreignKeys
  snapshot t :=
    if t = 1 ∨ t = 2 then AList.singleton [128, 0, 0, 1] [some (.integer 1), some (.integer 5)]
    else ∅
  latest _ := ∅
  limits := ⟨10000, 16 * 1024 * 1024⟩

/-- ... whose codes may follow those of the first. -/
def followsCode : ForeignKeyRow := ⟨1, 2, "codes_code_fkey", [1], 1, [1], .noAction, .cascade⟩

/-- `INSERT INTO codes VALUES (1, code)` with an `ON CONFLICT` clause. -/
def insertCode (code : BitVec 32) (onConflict : BoundOnConflict) : Insert where
  tableId := 1
  proposed := [[some (.integer 1), some (.integer code)]]
  onConflict := some onConflict
  returning _ := .ok ()
  checks _ _ _ := .ok ()

theorem codesDb_ok (fks : List ForeignKeyRow) : Db.TableOk (codesDb fks) 1 (codesShape 1) where
  resolved := rfl
  id := rfl
  pkNodup := by decide
  pkColumns := by decide
  wide := by
    intro k row h o ho
    have hmem := AList.mem_lookup_iff.mp h
    have hrow : row = [some (.integer 1), some (.integer 5)] := by
      simpa [codesDb, AList.singleton] using congrArg (·.2) (mem_singleton.mp hmem)
    rw [hrow]
    revert o
    decide

def excludedCode : ConflictExpr := ⟨false, fun _ excluded => .ok (columnValue excluded 1)⟩

/-- `ON CONFLICT (id) DO UPDATE SET code = excluded.code`. -/
def replaceCode : BoundOnConflict := ⟨[⟨none, [0]⟩], .doUpdate [⟨1, excludedCode⟩] none⟩

/-- `ON CONFLICT (code) DO NOTHING`. -/
def skipCode : BoundOnConflict := ⟨[⟨some 1, [1]⟩], .doNothing⟩

end RubixDb.Proof
