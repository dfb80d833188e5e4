import RubixDb.Proof.DirectWrites

/-!
# Runs of direct writes

Any number of processes write rows, each with the epoch lock of its table shared. The
invariant is that the entries of the log are right, in whatever part of it a crash would
leave; the processes only add that what they have put together so far fits their table.
A step either leaves the log alone or submits one batch, which is the subject of
`BatchOk.exact`.
-/

namespace RubixDb.Proof

open Lib RubixDb.TableStore List

variable {catalog : TableCatalog} {wal : List (Batch StoreKey StoreValue)} {es : RelStore} {t : Nat}
    {shape : TableShape} {pk : Bytes} {r : Row} {done : List PreparedRow}

/-! ## The processes -/

/-- What one step of a call can be. -/
inductive Stepped (catalog : TableCatalog) (seen : Seen StoreKey StoreValue Unit) :
    Pc → Action → Effect Nat StoreKey StoreValue → Pc → Prop where
  | refused (call : Call) : Stepped catalog seen .idle (.call call) .quiet .idle
  | lock (call : Call) :
      Stepped catalog seen .idle (.call call) (.acquire call.tableId false) (.locked call)
  | failLocked (call : Call) : Stepped catalog seen (.locked call) .next .release .idle
  | plan {call : Call} {shape : TableShape} {todo : List RowRequest}
      (hshape : catalog.shape call.tableId = some shape) (hreq : call.requests shape = .ok todo) :
      Stepped catalog seen (.locked call) .next .quiet (.reading shape todo [])
  | failReading (shape : TableShape) (todo : List RowRequest) (done : List PreparedRow) :
      Stepped catalog seen (.reading shape todo done) .next .release .idle
  | read {shape : TableShape} {request : RowRequest} {todo : List RowRequest}
      {done : List PreparedRow} {row : PreparedRow}
      (hrow : prepareRow seen.store shape (TableStore.maintainedIndexes catalog shape.table.tableId)
        request = .ok row) :
      Stepped catalog seen (.reading shape (request :: todo) done) .next .quiet
        (.reading shape todo (done ++ [row]))
  | submit (shape : TableShape) (done : List PreparedRow) :
      Stepped catalog seen (.reading shape [] done) .next (.submit (done.flatMap (·.ops)))
        (.submitted shape.table.tableId)
  | apply (t : Nat) : Stepped catalog seen (.submitted t) .next .apply (.applied t)
  | finish (t : Nat) : Stepped catalog seen (.applied t) .next .release .idle

/-- Inversion of a step of `TableStore`. -/
theorem stepped_of_step {seen : Seen StoreKey StoreValue Unit} {pc pc' : Pc} {a : Action}
    {e : Effect Nat StoreKey StoreValue} {g : Unit}
    (h : (program catalog).step seen pc a = some (e, g, pc')) :
    Stepped catalog seen pc a e pc' := by
  change TableStore.step catalog seen pc a = some (e, g, pc') at h
  cases pc with
  | idle =>
    cases a with
    | next => cases h
    | call call =>
      simp only [TableStore.step] at h
      split at h
      · cases h
        exact .refused call
      · cases h
        exact .lock call
  | locked call =>
    cases a with
    | call c => cases h
    | next =>
      simp only [TableStore.step] at h
      split at h
      · cases h
        exact .failLocked call
      · rename_i shape hshape
        split at h
        · cases h
          exact .failLocked call
        · rename_i todo hreq
          cases h
          refine .plan ?_ hreq
          rw [resolveTable] at hshape
          split at hshape
          · rename_i hs
            rw [hs, Except.ok.inj hshape]
          · cases hshape
  | reading shape todo done =>
    cases a with
    | call c => cases todo <;> cases h
    | next =>
      cases todo with
      | nil =>
        cases h
        exact .submit shape done
      | cons request todo =>
        simp only [TableStore.step] at h
        split at h
        · cases h
          exact .failReading shape _ done
        · rename_i row hrow
          cases h
          exact .read hrow
  | submitted t =>
    cases a with
    | call c => cases h
    | next =>
      cases h
      exact .apply t
  | applied t =>
    cases a with
    | call c => cases h
    | next =>
      cases h
      exact .finish t

/-- Which lock a call holds; it never has it alone. -/
def writerHolds : Pc → List (Nat × Bool)
  | .idle => []
  | .locked call => [(call.tableId, false)]
  | .reading shape _ _ => [(shape.table.tableId, false)]
  | .submitted t => [(t, false)]
  | .applied t => [(t, false)]

def writerInFlight : Pc → Bool
  | .submitted _ => true
  | _ => false

/-- The discipline of direct writes: no key is guarded. -/
def writerDiscipline (catalog : TableCatalog) : Discipline (program catalog) where
  valid := fun _ => True
  holds := writerHolds
  inFlight := writerInFlight
  guard := fun _ => none
  valid_idle := trivial
  holds_idle := rfl
  free_idle := rfl
  valid_step _ _ := trivial
  holds_step _ h := by
    cases stepped_of_step h with
    | plan hshape _ => exact congrArg (fun t => [(t, false)]) (catalog.tableId _ _ hshape)
    | _ => rfl
  flight_before h := by cases stepped_of_step h <;> rfl
  flight_after h := by cases stepped_of_step h <;> rfl
  guarded _ _ _ _ _ hk := by cases hk

/-- What has been put together so far is right, and a batch in flight is on its table. -/
def WriterOk (catalog : TableCatalog) (proc : Proc StoreKey StoreValue Pc) : Prop :=
  match proc.pc with
  | .reading shape todo done =>
    catalog.shape shape.table.tableId = some shape ∧
      (∀ values, .put values ∈ todo → RowTyped shape values) ∧
      ∀ d ∈ done, PreparedOk catalog shape d
  | .submitted t => ∀ b, proc.batch = some b → ∀ k, Writes b.ops k → onTable t k
  | _ => True

/-- Every row of the log has the types of its table's columns. -/
def WalTyped (catalog : TableCatalog) (wal : List (Batch StoreKey StoreValue)) : Prop :=
  ∀ b ∈ wal, ∀ t pk version row, (.row t pk, some (.row version row)) ∈ b.ops →
    ∀ shape, catalog.shape t = some shape → RowTyped shape row

structure WritersOk (catalog : TableCatalog) (w : Writers) : Prop where
  ok : w.Ok (writerDiscipline catalog)
  typed : WalTyped catalog w.wal
  procs : ∀ p, WriterOk catalog (w.procs p)
  /-- Also of what a crash would leave of the log. -/
  exact : ∀ n, w.durable ≤ n → ∀ t, Exact catalog (replay (w.wal.filter fun b => b.seq ≤ n)) t

/-! ## Steps -/

/-- The rows that are read from a store made from the log have the right types. -/
theorem rowTyped_of_logged
    (hes : ∀ v ∈ es, ∃ b ∈ wal, v.seq = b.seq ∧ lastOp b.ops v.key = some v.value)
    (htyped : WalTyped catalog wal) (hshape : catalog.shape t = some shape)
    (hr : rowNow es t pk = some r) : RowTyped shape r := by
  obtain ⟨value, hvalue, hrow⟩ := Option.bind_eq_some_iff.mp hr
  obtain ⟨v, hv, hval⟩ := Option.bind_eq_some_iff.mp hvalue
  obtain ⟨hmem, ⟨hkey, -⟩, -⟩ := isBest_of_best hv
  obtain ⟨b, hb, -, hop⟩ := hes v hmem
  rw [hkey, hval] at hop
  cases value with
  | row version row =>
    cases hrow
    exact htyped b hb t pk version r (mem_of_lastOp hop) shape hshape
  | _ => cases hrow

theorem mapError_eq_ok {ε α : Type} {f : ε → TxnError} {x : Except ε α} {a : α}
    (h : x.mapError f = .ok a) : x = .ok a := by
  cases x with
  | ok b => exact congrArg Except.ok (Except.ok.inj h)
  | error e => cases h

theorem preparedOk_of_prepareRow {request : RowRequest} {d : PreparedRow}
    (h : prepareRow es shape (TableStore.maintainedIndexes catalog shape.table.tableId) request =
      .ok d)
    (hstore : ∀ pk r, rowNow es shape.table.tableId pk = some r → RowTyped shape r)
    (hreq : ∀ values, request = .put values → RowTyped shape values) :
    PreparedOk catalog shape d := by
  -- the old row is what is stored, with the key values that were asked for
  have hfetch : ∀ (indexes : List IndexRow) pkValues pk r,
      (if indexes.isEmpty then none else fetchRow es shape pkValues pk) = some r →
        ∃ stored, RowTyped shape stored ∧
          r = withColumns stored shape.table.pkOrdinals (pkValues.map some) := by
    intro indexes pkValues pk r hr
    split_ifs at hr
    obtain ⟨stored, hs, rfl⟩ := Option.map_eq_some_iff.mp hr
    exact ⟨stored, hstore pk stored hs, rfl⟩
  cases request with
  | put values =>
    obtain ⟨pkValues, -, h⟩ := bind_eq_ok.mp h
    obtain ⟨pk, -, h⟩ := bind_eq_ok.mp h
    obtain ⟨maintenance, hm, h⟩ := bind_eq_ok.mp h
    obtain ⟨_, -, h⟩ := bind_eq_ok.mp h
    cases h
    refine ⟨⟨maintenance, hm, rfl⟩, ?_, hfetch _ pkValues pk⟩
    intro r hr
    cases hr
    exact hreq values rfl
  | delete pkValues =>
    obtain ⟨pk, -, h⟩ := bind_eq_ok.mp h
    obtain ⟨maintenance, hm, h⟩ := bind_eq_ok.mp h
    cases h
    refine ⟨⟨maintenance, hm, rfl⟩, ?_, hfetch _ pkValues pk⟩
    intro r hr
    cases hr

theorem validateRows_ok {rows : List Row} (h : validateRows shape rows = .ok ()) :
    ∀ row ∈ rows, validateRowShape shape.table shape.columns row = .ok () := by
  induction rows with
  | nil =>
    intro row hrow
    cases hrow
  | cons r rows ih =>
    obtain ⟨_, hr, h⟩ := bind_eq_ok.mp h
    intro row hrow
    rcases mem_cons.mp hrow with rfl | hrow
    · exact mapError_eq_ok hr
    · exact ih h row hrow

/-- The rows of a call that are put have passed `validate_row_shape`. -/
theorem valid_of_requests {call : Call} {todo : List RowRequest}
    (h : call.requests shape = .ok todo) {values : Row} (hv : .put values ∈ todo) :
    validateRowShape shape.table shape.columns values = .ok () := by
  cases call with
  | putRow t row =>
    obtain ⟨_, hvalid, h⟩ := bind_eq_ok.mp h
    cases h
    cases mem_singleton.mp hv
    exact validateRows_ok hvalid values (mem_singleton.mpr rfl)
  | putRows t rows =>
    obtain ⟨_, hvalid, h⟩ := bind_eq_ok.mp h
    cases h
    obtain ⟨row, hrow, heq⟩ := mem_map.mp hv
    cases heq
    exact validateRows_ok hvalid values hrow
  | deleteRow t pk =>
    cases h
    cases mem_singleton.mp hv

theorem BatchOk.onTable {log : RelStore} (h : BatchOk catalog log shape done) {k : StoreKey}
    (hk : Writes (done.flatMap (·.ops)) k) : onTable shape.table.tableId k := by
  obtain ⟨v, hv⟩ := hk
  obtain ⟨d, hd, hv⟩ := mem_flatMap.mp hv
  exact (h.prepared d hd).onTable ⟨v, hv⟩

/-- The log stays right, for the table that is written and for every other. -/
theorem BatchOk.exact_append {seq : Nat} (h : BatchOk catalog (replay wal) shape done)
    (he : ∀ t, Exact catalog (replay wal) t)
    (hord : (wal ++ [Batch.mk seq (done.flatMap (·.ops))]).Pairwise (·.seq < ·.seq)) (t : Nat) :
    Exact catalog (replay (wal ++ [Batch.mk seq (done.flatMap (·.ops))])) t := by
  by_cases ht : t = shape.table.tableId
  · rw [ht]
    exact h.exact (readNow_replay_append hord) (he _)
  · refine exact_congr (fun k hk => ?_) (he t)
    rw [readNow_replay_append hord, lastOp_eq_none_iff.mpr fun hw => ?_, Option.getD_none]
    have hk' := h.onTable hw
    cases k with
    | row t' pk | entry t' id body => exact ht (hk.symm.trans hk')
    | _ => exact hk

theorem WalTyped.append (h : WalTyped catalog wal) {seq : Nat} {log : RelStore}
    (hbatch : BatchOk catalog log shape done) :
    WalTyped catalog (wal ++ [Batch.mk seq (done.flatMap (·.ops))]) := by
  intro b hb t pk version row hop shape' hshape'
  rcases mem_append.mp hb with hb | hb
  · exact h b hb t pk version row hop shape' hshape'
  · rw [mem_singleton.mp hb] at hop
    obtain ⟨d, hd, hop⟩ := mem_flatMap.mp hop
    obtain ⟨maintenance, hm, hops⟩ := (hbatch.prepared d hd).ops
    rw [hops] at hop
    rcases mem_append.mp hop with hop | hop
    · obtain ⟨id, body, heq⟩ := onTable_of_indexMaintenanceOps hm ⟨_, hop⟩
      cases heq
    · obtain ⟨hkey, hvalue⟩ := Prod.mk.inj (mem_singleton.mp hop)
      obtain ⟨r, hr, heq⟩ := Option.map_eq_some_iff.mp hvalue.symm
      cases hkey
      cases heq
      rw [hbatch.resolved] at hshape'
      cases hshape'
      exact (hbatch.prepared d hd).new row hr

section Run

variable {w w' : Writers}

theorem WritersOk.rowTyped_store (h : WritersOk catalog w)
    (hshape : catalog.shape shape.table.tableId = some shape)
    (hr : rowNow w.store shape.table.tableId pk = some r) : RowTyped shape r := by
  refine rowTyped_of_logged (fun v hv => ?_) h.typed hshape hr
  obtain ⟨b, hb, -, hop⟩ := (h.ok.store v).mp hv
  exact ⟨b, hb, hop⟩

theorem WritersOk.rowTyped_log (h : WritersOk catalog w)
    (hshape : catalog.shape shape.table.tableId = some shape)
    (hr : rowNow (replay w.wal) shape.table.tableId pk = some r) : RowTyped shape r :=
  rowTyped_of_logged (fun _ hv => (mem_replay h.ok.ordered).mp hv) h.typed hshape hr

theorem filter_eq_self_of_le {n : Nat}
    (h : ∀ b ∈ wal, b.seq ≤ n) : (wal.filter fun b => b.seq ≤ n) = wal :=
  filter_eq_self.mpr fun b hb => decide_eq_true (h b hb)

theorem WritersOk.exact_log (h : WritersOk catalog w) (t : Nat) :
    Exact catalog (replay w.wal) t := by
  have hn := h.exact w.next (Nat.le_of_lt h.ok.durable) t
  rwa [filter_eq_self_of_le fun b hb => Nat.le_of_lt (h.ok.below b hb)] at hn

theorem writersOk_boot (hord : wal.Pairwise (·.seq < ·.seq)) (htyped : WalTyped catalog wal)
    (hexact : ∀ t, Exact catalog (replay wal) t) :
    WritersOk catalog (System.boot (program catalog) wal) where
  ok := System.ok_boot hord
  typed := htyped
  procs _ := trivial
  exact n hn t := by
    have hall : ∀ b ∈ wal, b.seq ≤ n := fun b hb => Nat.le_trans (le_lastSeq_of_mem hb) hn
    show Exact catalog (replay (wal.filter fun b => b.seq ≤ n)) t
    rw [filter_eq_self_of_le hall]
    exact hexact t

/-- A step that leaves the log alone and moves one process on. -/
theorem WritersOk.moveOn (h : WritersOk catalog w) (hok : w'.Ok (writerDiscipline catalog))
    (hwal : w'.wal = w.wal) (hdurable : w'.durable = w.durable) {p : Nat}
    (hother : ∀ q, q ≠ p → w'.procs q = w.procs q) (hself : WriterOk catalog (w'.procs p)) :
    WritersOk catalog w' where
  ok := hok
  typed := by rw [hwal]; exact h.typed
  procs q := by
    by_cases hq : q = p
    · rw [hq]
      exact hself
    · rw [hother q hq]
      exact h.procs q
  exact := by rw [hwal, hdurable]; exact h.exact

/-- **Every step keeps the entries of the log right**, if what is submitted is still
current. -/
theorem WritersOk.act (h : WritersOk catalog w) {a : Act Action} (hcur : Current catalog w a)
    (hact : w.act (program catalog) a = some w') : WritersOk catalog w' := by
  have hok := System.ok_act h.ok hact
  cases a with
  | sync n =>
    simp only [System.act] at hact
    split_ifs at hact with hn
    cases hact
    -- a cut past the new mark is one past the old
    exact ⟨hok, h.typed, h.procs, fun m hm => h.exact m (Nat.le_trans (Nat.le_of_lt hn.1) hm)⟩
  | crash cut =>
    simp only [System.act] at hact
    split_ifs at hact with hcut
    cases hact
    -- what is left of the log is one of the cuts `exact` speaks of
    refine writersOk_boot (List.Pairwise.filter _ h.ok.ordered) ?_ (h.exact cut hcut)
    intro b hb
    exact h.typed b (mem_filter.mp hb).1
  | step p a =>
    have hm := System.moved_of_act hact
    have hother : ∀ q, q ≠ p → w'.procs q = w.procs q := fun q hq => hm.procs_of_ne hq
    have hproc := h.procs p
    cases hm with
    | quiet hs =>
      refine h.moveOn hok rfl rfl hother ?_
      simp only [Function.update_self]
      generalize hpc : (w.procs p).pc = pc at hs
      cases stepped_of_step hs with
      | refused call => trivial
      | plan hshape hreq =>
        have hid := catalog.tableId _ _ hshape
        refine ⟨hid ▸ hshape, fun values hv => ?_, fun d hd => by cases hd⟩
        exact rowTyped_of_valid (catalog.ordinals _ _ hshape) (valid_of_requests hreq hv)
      | read hrow =>
        rw [WriterOk, hpc] at hproc
        obtain ⟨hshape, htodo, hdone⟩ := hproc
        refine ⟨hshape, fun values hv => htodo values (mem_cons_of_mem _ hv), fun d hd => ?_⟩
        rcases mem_append.mp hd with hd | hd
        · exact hdone d hd
        · rw [mem_singleton.mp hd]
          refine preparedOk_of_prepareRow hrow (fun pk r hr => h.rowTyped_store hshape hr) ?_
          intro values hv
          exact htodo values (hv ▸ mem_cons_self)
    | acquire hs _ =>
      refine h.moveOn hok rfl rfl hother ?_
      simp only [Function.update_self]
      generalize (w.procs p).pc = pc at hs
      cases stepped_of_step hs with
      | lock call => trivial
    | release hs =>
      refine h.moveOn hok rfl rfl hother ?_
      simp only [Function.update_self]
      generalize (w.procs p).pc = pc at hs
      cases stepped_of_step hs <;> trivial
    | apply hs _ _ =>
      refine h.moveOn hok rfl rfl hother ?_
      simp only [Function.update_self]
      generalize (w.procs p).pc = pc at hs
      cases stepped_of_step hs with
      | apply t => trivial
    | @submit g pc ops hs =>
      generalize hpc : (w.procs p).pc = before at hs
      cases stepped_of_step hs with
      | submit shape done =>
        rw [WriterOk, hpc] at hproc
        obtain ⟨hshape, -, hdone⟩ := hproc
        -- the rows read are still those of the log, so the batch fits it
        have hbatch : BatchOk catalog (replay w.wal) shape done := by
          refine ⟨hshape, hdone, fun pk r hr => h.rowTyped_log hshape hr, ?_⟩
          exact hcur (shape, done) (by rw [hpc]; rfl)
        refine ⟨hok, h.typed.append hbatch, fun q => ?_, fun n hn t => ?_⟩
        · by_cases hq : q = p
          · rw [hq]
            simp only [Function.update_self]
            intro b hb k hk
            cases hb
            exact hbatch.onTable hk
          · rw [hother q hq]
            exact h.procs q
        · by_cases hnext : w.next ≤ n
          · have hall : ∀ b ∈ w.wal ++ [Batch.mk w.next (done.flatMap (·.ops))], b.seq ≤ n :=
              fun b hb => Nat.le_trans (Nat.lt_succ_iff.mp (hok.below b hb)) hnext
            rw [filter_eq_self_of_le hall]
            exact hbatch.exact_append (h.exact_log) hok.ordered t
          · -- the batch is not part of what is left
            have hdrop :
                ((w.wal ++ [Batch.mk w.next (done.flatMap (·.ops))]).filter fun b => b.seq ≤ n) =
                w.wal.filter fun b => b.seq ≤ n := by
              simp [hnext]
            rw [hdrop]
            exact h.exact n hn t

theorem WritersOk.exact_store (h : WritersOk catalog w) (hfree : w.locks t = []) :
    Exact catalog w.store t := by
  refine exact_congr (fun k hk => ?_) (h.exact_log t)
  refine (h.ok.readNow_store fun p b hb hw => ?_).symm
  -- a process with a batch in flight still holds the lock of its table
  have hflight := h.ok.flight p
  rw [hb] at hflight
  have hproc := h.procs p
  have hlocks := h.ok.locks t p false
  rw [hfree] at hlocks
  cases hpc : (w.procs p).pc with
  | submitted t' =>
    rw [WriterOk, hpc] at hproc
    rw [hpc] at hlocks
    have hk' := hproc b hb k hw
    have htt : t' = t := by
      cases k with
      | row u pk | entry u id body => exact hk'.symm.trans hk
      | _ => exact hk.elim
    rw [htt] at hlocks
    cases hlocks.mpr (mem_singleton.mpr rfl)
  | _ => rw [hpc] at hflight; cases hflight

end Run

/-- **Direct writes keep the indexes exact**: in every run in which each batch is submitted
while what its call has read is current, the entries of a table's maintained indexes are
those of its rows whenever no call on the table is at work. -/
theorem direct_writes_exact {catalog : TableCatalog} {wal : List (Batch StoreKey StoreValue)}
    (hord : wal.Pairwise (·.seq < ·.seq)) (htyped : WalTyped catalog wal)
    (hexact : ∀ t, Exact catalog (replay wal) t) {w : Writers}
    (h : Reach (System.act (program catalog)) (Current catalog)
      (System.boot (program catalog) wal) w)
    {t : Nat} (hfree : w.locks t = []) : Exact catalog w.store t := by
  have hok := h.invariant (writersOk_boot hord htyped hexact) fun h hc hact => h.act hc hact
  exact hok.exact_store hfree

/-! ## Two runs -/

/-- A table of pairs of integers, the first the key, with an index on the second. -/
def pairs : TableCatalog where
  shape t := if t = 1 then some ⟨⟨1, [0], 1, .active⟩,
    [⟨1, 0, "id", 2, false, none, 1, none, none⟩, ⟨1, 1, "v", 2, true, none, 1, none, none⟩]⟩
      else none
  indexes t := if t = 1 then [⟨5, 1, "by_v", .nonUnique, [1], .ready⟩] else []
  tableId t s h := by
    split_ifs at h
    cases h
    exact Eq.symm ‹_›
  ordinals t s h := by
    split_ifs at h
    cases h
    rfl
  indexIds t := by
    split
    · exact nodup_singleton _
    · exact nodup_nil

def pair (id v : BitVec 32) : Row := [some (.integer id), some (.integer v)]

/-- Process `p` makes a call that reads `rows` rows, undisturbed; `seq` is what the log is
synced to. -/
def callAlone (p : Nat) (call : Call) (rows seq : Nat) : List (Act Action) :=
  .step p (.call call) :: List.replicate (rows + 2) (.step p .next) ++
    [.sync seq, .step p .next, .step p .next]

/-- An entry of the index that no row calls for. -/
def dangling (es : RelStore) : Bool :=
  (entriesAt es (topSeq es) 1 5).any fun body =>
    !(derivedEntries es 1 ⟨5, 1, "by_v", .nonUnique, [1], .ready⟩).contains (.entry 1 5 body)

theorem not_exact_of_dangling (h : dangling es = true) : ¬ Exact pairs es 1 := by
  intro hexact
  obtain ⟨body, hbody, hnot⟩ := any_eq_true.mp h
  have hmem := (hexact ⟨5, 1, "by_v", .nonUnique, [1], .ready⟩ (by decide) body).mp hbody
  rw [Bool.not_eq_true', ← Bool.not_eq_true, contains_iff_mem] at hnot
  exact hnot hmem

/-- Two writes of one row, one after the other, with the first row moved in the index. -/
theorem direct_writes_exact_two_puts :
    ∃ w, Reach (System.act (program pairs)) (Current pairs) (System.boot (program pairs) []) w ∧
      (entriesAt w.store (topSeq w.store) 1 5).length = 1 ∧ Exact pairs w.store 1 := by
  obtain ⟨w, hreach, hfree, hlen⟩ :
      ∃ w, Reach (System.act (program pairs)) (Current pairs) (System.boot (program pairs) []) w ∧
        w.locks 1 = [] ∧ (entriesAt w.store (topSeq w.store) 1 5).length = 1 :=
    exists_reach_of_run
      (callAlone 0 (.putRow 1 (pair 1 10)) 1 1 ++ callAlone 0 (.putRow 1 (pair 1 20)) 1 2)
      (by decide +kernel)
  refine ⟨w, hreach, hlen, direct_writes_exact List.Pairwise.nil ?_ ?_ hreach hfree⟩
  · intro b hb
    cases hb
  · intro t
    rw [exact_iff]
    intro i _ body
    constructor
    · intro h
      cases h
    · rintro ⟨pk, hpk⟩
      cases hpk

/-- Processes 1 and 2 replace one row, each having read it before the other writes. -/
def racingPuts : List (Act Action) :=
  callAlone 0 (.putRow 1 (pair 1 10)) 1 1 ++
    [.step 1 (.call (.putRow 1 (pair 1 20))), .step 2 (.call (.putRow 1 (pair 1 30))),
      .step 1 .next, .step 1 .next, .step 2 .next, .step 2 .next, .step 1 .next, .step 2 .next,
      .sync 3, .step 1 .next, .step 1 .next, .step 2 .next, .step 2 .next]

/-- Calls are made one after another. -/
def oneProcess : Act Action → Bool
  | .step p _ => p = 0
  | _ => true

/-- Every call is of one row. -/
def oneRow : Act Action → Bool
  | .step _ (.call (.putRows _ _)) => false
  | _ => true

theorem dangling_of_run {C : Act Action → Bool} (acts : List (Act Action))
    (h : (run (System.act (program pairs)) (fun _ a => C a = true)
      (System.boot (program pairs) []) acts).any
      (fun w => decide (w.locks 1 = [] ∧ dangling w.store = true)) = true) :
    ∃ w, Reach (System.act (program pairs)) (fun _ a => C a = true)
        (System.boot (program pairs) []) w ∧
      w.locks 1 = [] ∧ ¬ Exact pairs w.store 1 := by
  obtain ⟨w, hreach, hfree, hdangling⟩ := exists_reach_of_run acts h
  exact ⟨w, hreach, hfree, not_exact_of_dangling hdangling⟩

/-- Two rows with one key in a batch leave two entries; so do two processes that both have
read a row before either wrote it. -/
theorem direct_writes_leave_dangling_entry :
    (∃ w, Reach (System.act (program pairs)) (fun _ a => oneProcess a = true)
        (System.boot (program pairs) []) w ∧ w.locks 1 = [] ∧ ¬ Exact pairs w.store 1) ∧
      ∃ w, Reach (System.act (program pairs)) (fun _ a => oneRow a = true)
        (System.boot (program pairs) []) w ∧ w.locks 1 = [] ∧ ¬ Exact pairs w.store 1 :=
  ⟨dangling_of_run (callAlone 0 (.putRows 1 [pair 1 10, pair 1 20]) 2 1) (by decide +kernel),
    dangling_of_run racingPuts (by decide +kernel)⟩

end RubixDb.Proof
