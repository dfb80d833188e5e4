import RubixDb.Proof.Appends
import RubixDb.Proof.Ledger

/-!
# Compaction cycles that fail

A cycle records its output, takes its inputs out of the manifest one by one, and only then
changes the list and unlinks the inputs. It may fail at any of these edits, and then the
list, the manifest and the directory disagree: the list still has every input, the
manifest has the output and some of the inputs, and all files are there. Later cycles
start from the list, a crash from the manifest.

What keeps both right is that an output holds the newest version of everything in the
list it was made from. `B` is what the tables held at the start. Without a flush:

* the list always has the newest version of all of `B`, so every output does;
* inputs leave the manifest only while the output they went into is live;
* a file is unlinked only once its table is out of the manifest as synced.

So whichever initial part of the edits a crash leaves, the live tables have their files
and the newest version of all of `B`.
-/

namespace RubixDb.Proof

open Lib List

variable {crc : Bytes → UInt32} {w w' : World} {a : Act} {st st' : ManifestState}
  {B : List Entry} {t o : SsTable} {c : Cycle} {id s : Nat} {us : List SsTable} {m : Manifest}

/-- The step belongs to the flush thread. -/
def isFlush : Act → Bool
  | .flushRecv | .flushBegin | .flushWrite _ | .flushAdd _ | .flushInstall | .flushRotate
  | .flushMarker _ | .flushAwait | .flushCheckpoint _ | .flushRetire | .flushPurge _
  | .flushFail => true
  | _ => false

/-- The tables of the directory that are live in this state of the manifest. -/
def liveTables (w : World) (st : ManifestState) : List SsTable :=
  (w.files.filter fun f => st.isLive f.table.id).map (·.table)

theorem mem_liveTables :
    t ∈ liveTables w st ↔ ∃ f ∈ w.files, f.table = t ∧ st.isLive t.id = true := by
  simp only [liveTables, mem_map, mem_filter]
  constructor
  · rintro ⟨f, ⟨hf, hl⟩, rfl⟩
    exact ⟨f, hf, rfl, hl⟩
  · rintro ⟨f, hf, rfl, hl⟩
    exact ⟨f, ⟨hf, hl⟩, rfl⟩

/-! ## The process -/

/-- Lists, outputs and files, against what the tables held at the start. -/
structure Stocked (B : List Entry) (w : World) : Prop where
  idle : w.flush = none
  fits : ∀ e ∈ B, e.seq ≤ u64Max
  files : ∀ f ∈ w.files, ∀ e ∈ f.table.records, e ∈ B
  tables : ∀ t ∈ w.sstables, ∀ e ∈ t.records, e ∈ B
  list : Covers u64Max (inputRecords w.sstables) B
  inputs : ∀ c, w.cycle = some c → Covers u64Max (inputRecords c.inputs) B
  output : ∀ c o, w.cycle = some c → cycleOutput c.stage = some o → Covers u64Max o.records B

/-- The output of a cycle has the newest version of everything. -/
theorem Stocked.merge {oldest : Option Nat} (h : Stocked B w) (hcy : Cycling w)
    (hc : w.cycle = some c) : Covers u64Max (mergeTable c.inputs oldest id).records B := by
  refine (merge_covers (floorFits_of_top oldest fun v hv => ?_)).trans (h.inputs c hc)
  obtain ⟨t, ht, hv⟩ := mem_inputRecords.mp hv
  exact h.fits v (h.tables t (hcy.inputs c hc t ht) v hv)

theorem covers_mono {ts : List SsTable} (h : Covers s (inputRecords ts) B)
    (hsub : ∀ t ∈ ts, t ∈ us) : Covers s (inputRecords us) B := by
  intro e he hes
  obtain ⟨v, hv, hvis, hle⟩ := h e he hes
  obtain ⟨t, ht, hv⟩ := mem_inputRecords.mp hv
  exact ⟨v, mem_inputRecords.mpr ⟨t, hsub t ht, hv⟩, hvis, hle⟩

theorem covers_of_table (h : Covers s t.records B)
    (ht : t ∈ us) : Covers s (inputRecords us) B := by
  intro e he hes
  obtain ⟨v, hv, hvis, hle⟩ := h e he hes
  exact ⟨v, mem_inputRecords.mpr ⟨t, ht, hv⟩, hvis, hle⟩

/-- A cycle starts or goes on. -/
theorem Stocked.setCycle {inputs : List SsTable} {stage : CycleStage} (h : Stocked B w)
    (hin : Covers u64Max (inputRecords inputs) B)
    (hout : ∀ o, cycleOutput stage = some o → Covers u64Max o.records B) :
    Stocked B (w.setCycle (some ⟨inputs, stage⟩)) :=
  { h with
    inputs := by
      intro c hc
      cases hc
      exact hin
    output := by
      intro c o hc ho
      cases hc
      exact hout o ho }

/-- No cycle loses a newest version or makes one up. -/
theorem stocked_step (h : Stocked B w) (hcy : Cycling w) (hs : Step crc w a w')
    (hfl : isFlush a = false) (hne : isReopen a = false)
    (hnew : ∀ c o, w.cycle = some c → c.stage = .removing o [] → ∀ t ∈ w.sstables, t.id ≠ o.id) :
    Stocked B w' := by
  cases hs with
  | compactCapture => exact h.setCycle h.list (by simp [cycleOutput])
  | compactSample hc => exact h.setCycle (h.inputs _ hc) (by simp [cycleOutput])
  | compactAllocate hc =>
    have hw : Stocked B w.takeId := { h with }
    exact hw.setCycle (h.inputs _ hc) (by simp [cycleOutput])
  | @compactWrite c oldest size id hc =>
    have hw : Stocked B (w.addFile ⟨mergeTable c.inputs oldest id, size⟩) := { h with
      files := by
        refine forall_mem_concat h.files fun e he => ?_
        obtain ⟨t, ht, he⟩ := hcy.mem_merge hc he
        exact h.tables t ht e he }
    refine hw.setCycle (h.inputs c hc) fun o ho => ?_
    cases ho
    exact h.merge hcy hc
  | @compactAdd c o size fault m hc hst | @compactRemove c o rest fault m id hc hst =>
    have hw : Stocked B (w.setManifest m) := { h with }
    exact hw.setCycle (h.inputs c hc) fun o' ho => h.output c o' hc (by rw [hst]; exact ho)
  | compactAddFail | compactRemoveFail | compactAbort =>
    exact { h with
      inputs := by intro c hc; cases hc
      output := by intro c o hc; cases hc }
  | @compactSplice c o hc hst =>
    have ho : cycleOutput c.stage = some o := by rw [hst]; rfl
    have hin : o ∈ (w.splice c.inputs o).sstables := by
      unfold World.splice
      dsimp only
      rw [if_neg]
      · exact mem_cons_self
      · intro hany
        obtain ⟨t, ht, hid⟩ := any_eq_true.mp hany
        exact hnew c o hc hst t (mem_filter.mp ht).1 (by simpa using hid)
    exact { h with
      tables := by
        intro t ht e he
        rcases mem_splice ht with rfl | ⟨ht, _⟩
        · obtain ⟨u, hu, he⟩ := hcy.mem_output hc ho he
          exact h.tables u hu e he
        · exact h.tables t ht e he
      list := covers_of_table (h.output c o hc ho) hin
      inputs := by intro c hc; cases hc
      output := by intro c o hc; cases hc }
  | unlink => exact { h with files := fun f hf => h.files f (mem_filter.mp hf).1 }
  | reopen => cases hne
  | _ => first | exact { h with } | cases hfl

/-! ## The manifest -/

/-- One state the manifest may be found in. -/
structure Backed (B : List Entry) (w : World) (st : ManifestState) : Prop where
  ledger : Ledger w st
  live : Covers u64Max (inputRecords (liveTables w st)) B
  written : ∀ c o size, w.cycle = some c → c.stage = .written o size → ∃ f ∈ w.files, f.table = o
  removing : ∀ c o rest, w.cycle = some c → c.stage = .removing o rest →
    st.isLive o.id = true ∧ (∃ f ∈ w.files, f.table = o) ∧ (∀ id ∈ rest, id ≠ o.id) ∧
      ∀ t ∈ w.sstables, t.id ≠ o.id

/-- More of the same: no live file goes, and no cycle comes to have an output. -/
theorem Backed.frame (h : Backed B w st) (hl : Ledger w' st)
    (hfiles : ∀ f ∈ w.files, st.isLive f.table.id = true → f ∈ w'.files)
    (hwr : ∀ c o size, w'.cycle = some c → c.stage = .written o size →
      ∃ f ∈ w'.files, f.table = o)
    (hrm : ∀ c o rest, w'.cycle = some c → c.stage = .removing o rest →
      w.cycle = some c ∧ w'.sstables = w.sstables) : Backed B w' st where
  ledger := hl
  live := by
    refine covers_mono h.live fun t ht => ?_
    obtain ⟨f, hf, rfl, hlive⟩ := mem_liveTables.mp ht
    exact mem_liveTables.mpr ⟨f, hfiles f hf hlive, rfl, hlive⟩
  written := hwr
  removing := by
    intro c o rest hc hst
    obtain ⟨hc', ht⟩ := hrm c o rest hc hst
    obtain ⟨hlive, ⟨f, hf, rfl⟩, hids, hnew⟩ := h.removing c o rest hc' hst
    exact ⟨hlive, ⟨f, hfiles f hf hlive, rfl⟩, hids, ht ▸ hnew⟩

/-- The cycle is over. -/
theorem Backed.idle (h : Backed B w st) : Backed B ((w.setManifest m).setCycle none) st := by
  refine h.frame (h.ledger.setCycle ⟨rfl, rfl, rfl, rfl, rfl⟩ (by simp)) (fun f hf _ => hf) ?_ ?_
  · nofun
  · nofun

theorem backed_step (h : Backed B w st) (hf : Filed w) (hcy : Cycling w) (hs : Step crc w a w')
    (hfl : isFlush a = false) (hne : isReopen a = false) (hno : appendFault a = none) :
    Backed B w' st := by
  have hl : Ledger w' st := ledger_step h.ledger hf hcy hs hne hno
  cases hs with
  | compactCapture | compactSample | compactAllocate =>
    refine h.frame hl (fun f hf _ => hf) ?_ ?_
    · intro c o size hc hst
      cases hc
      cases hst
    · intro c o rest hc hst
      cases hc
      cases hst
  | @compactWrite c oldest size id =>
    refine h.frame hl (fun f hf _ => mem_append_left _ hf) ?_ ?_
    · intro c' o size' hc hst
      cases hc
      obtain ⟨rfl, _⟩ := CycleStage.written.inj hst
      exact ⟨_, mem_append_right _ (mem_singleton_self _), rfl⟩
    · intro c' o rest hc hst
      cases hc
      cases hst
  | compactSplice | compactAbort =>
    refine h.frame hl (fun f hf _ => hf) ?_ ?_
    · intro c o size hc; cases hc
    · intro c o rest hc; cases hc
  | @unlink id hid =>
    -- the output of the running cycle is not among the files to unlink
    obtain ⟨hever, hdead⟩ := h.ledger.garbage id hid
    refine h.frame hl (fun f hf hlive => ?_) (fun c o size hc hst => ?_) (fun c o rest hc _ => ?_)
    · refine mem_filter.mpr ⟨hf, ?_⟩
      have hne : f.table.id ≠ id := fun he => by rw [he, hdead] at hlive; cases hlive
      simpa using hne
    · obtain ⟨f, hf, rfl⟩ := h.written c o size hc hst
      refine ⟨f, mem_filter.mpr ⟨hf, ?_⟩, rfl⟩
      have hne : f.table.id ≠ id := fun he =>
        (h.ledger.output c f.table.id hc (.inr ⟨f.table, size, hst, rfl⟩)).1 (he ▸ hever)
      simpa using hne
    · exact ⟨hc, rfl⟩
  | reopen => cases hne
  | compactAdd | compactAddFail | compactRemove | compactRemoveFail => cases hno
  | _ => first | exact { h with ledger := hl } | cases hfl

/-- The output is recorded. -/
theorem Backed.add {size : UInt64} (h : Backed B w st) (hcy : Cycling w) (hc : w.cycle = some c)
    (hst : c.stage = .written o size) (happ : st.apply (addEdit o size) = .ok st') :
    Backed B ((w.setManifest m).setCycle (some ⟨c.inputs, .removing o (c.inputs.map (·.id))⟩))
      st' := by
  have hlive := isLive_add happ
  have hfresh := (h.ledger.output c o.id hc (.inr ⟨o, size, hst, rfl⟩)).1
  have hne : ∀ t ∈ w.sstables, t.id ≠ o.id := fun t ht he => hfresh (he ▸ h.ledger.tables t ht)
  exact {
    ledger := h.ledger.compactAdd hcy hc hst happ
    live := by
      refine covers_mono h.live fun t ht => ?_
      obtain ⟨f, hf, rfl, hl⟩ := mem_liveTables.mp ht
      exact mem_liveTables.mpr ⟨f, hf, rfl, (hlive f.table.id).mpr (.inl hl)⟩
    written := by
      intro c' o' size' hc' hst'
      cases hc'
      cases hst'
    removing := by
      intro c' o' rest hc' hst'
      cases hc'
      obtain ⟨rfl, rfl⟩ := CycleStage.removing.inj hst'
      refine ⟨(hlive o.id).mpr (.inr rfl), h.written c o size hc hst, fun id hid => ?_, hne⟩
      obtain ⟨t, ht, rfl⟩ := mem_map.mp hid
      exact hne t (hcy.inputs c hc t ht) }

/-- An input is taken out. The output alone has the newest version of everything. -/
theorem Backed.remove {rest : List Nat} (h : Backed B w st) (hst : Stocked B w)
    (hc : w.cycle = some c) (hstage : c.stage = .removing o (id :: rest))
    (happ : st.apply (.removeSstable id) = .ok st') :
    Backed B ((w.setManifest m).setCycle (some ⟨c.inputs, .removing o rest⟩)) st' := by
  obtain ⟨hlive, hfile, hids, hnew⟩ := h.removing c o (id :: rest) hc hstage
  have hever := (h.ledger.removing c o (id :: rest) hc hstage).2.1 id (by simp)
  obtain ⟨st₁, happ₁, hever', hl, _⟩ := apply_remove hever
  obtain rfl : st₁ = st' := Except.ok.inj (happ₁.symm.trans happ)
  have hlive' : st₁.isLive o.id = true := (hl o.id).mpr ⟨hlive, (hids id (by simp)).symm⟩
  obtain ⟨f, hf, rfl⟩ := hfile
  exact {
    ledger := h.ledger.compactRemove hc hstage hever' hl
    live := covers_of_table (hst.output c f.table hc (by rw [hstage]; rfl))
      (mem_liveTables.mpr ⟨f, hf, rfl, hlive'⟩)
    written := by
      intro c' o' size' hc' hst'
      cases hc'
      cases hst'
    removing := by
      intro c' o' rest' hc' hst'
      cases hc'
      obtain ⟨rfl, rfl⟩ := CycleStage.removing.inj hst'
      exact ⟨hlive', ⟨f, hf, rfl⟩, fun i hi => hids i (mem_cons_of_mem _ hi), hnew⟩ }

/-! ## Runs of cycles -/

/-- In one life of the process: the manifest holds the edits `es`, `ds` of them synced, and
every state it may be found in is backed by the tables. -/
structure Compacting (crc : Bytes → UInt32) (B : List Entry) (w : World)
    (es fs ds : List ManifestEdit) : Prop where
  logs : Logs crc w.manifest es fs ds
  stocked : Stocked B w
  filed : Filed w
  cycling : Cycling w
  nextId : w.nextId ≤ u64Max
  window : ∀ es' st, ds <+: es' → es' <+: es → ManifestState.applyAll {} es' = .ok st →
    Backed B w st

section Compacting

variable {es fs ds : List ManifestEdit} {e : ManifestEdit} {ok : Bool}
  {fault : AppendFault}

/-- What the manifest means now. -/
theorem Compacting.top (h : Compacting crc B w es fs ds) :
    ∃ st, ManifestState.applyAll {} es = .ok st ∧ Backed B w st := by
  obtain ⟨st, hst⟩ := h.logs.applies
  exact ⟨st, hst, h.window es st (h.logs.floor.1.trans h.logs.floor.2) (prefix_refl _) hst⟩

/-- An append, whatever fails in it: the states the manifest may be found in are those it
could be found in before and the one with the new edit. -/
theorem Compacting.append (h : Compacting crc B w es fs ds) (hwf : e.Wf)
    (happ : ∃ st, ManifestState.applyAll {} (es ++ [e]) = .ok st)
    (hroll : NoStaleRollback w.manifest fault) (hr : w.manifest.appendSync crc e fault = (m, ok))
    (hm : w'.manifest = m) (hstock : Stocked B w') (hfiled : Filed w') (hcy : Cycling w')
    (hid : w'.nextId = w.nextId) (hold : ok = false → ∀ st, Backed B w st → Backed B w' st)
    (hnew : ∀ st st', st.apply e = .ok st' → Backed B w st → Backed B w' st') :
    ∃ es' fs' ds', Compacting crc B w' es' fs' ds' := by
  obtain ⟨es', fs', ds', hlogs, hes', _, hds', hok⟩ := logs_appendSync h.logs hwf happ hroll hr
  have hlast : ∀ st', ManifestState.applyAll {} (es ++ [e]) = .ok st' → Backed B w' st' := by
    intro st' hst'
    obtain ⟨st, hst, hone⟩ := applyAll_append.mp hst'
    obtain ⟨st₁, happ₁, hnil⟩ := applyAll_cons.mp hone
    obtain rfl := Except.ok.inj hnil
    exact hnew st st₁ happ₁
      (h.window es st (h.logs.floor.1.trans h.logs.floor.2) (prefix_refl _) hst)
  refine ⟨es', fs', ds', hm ▸ hlogs, hstock, hfiled, hcy, hid ▸ h.nextId, ?_⟩
  intro es'' st hlo hhi hst
  cases ok with
  | true =>
    -- everything is synced: there is one state to be found
    obtain ⟨rfl, _, rfl⟩ := hok rfl
    obtain rfl := hlo.eq_of_length_le hhi.length_le
    exact hlast st hst
  | false =>
    have hin : es'' <+: es → Backed B w' st := fun hpre =>
      hold rfl st (h.window es'' st (hds'.trans hlo) hpre hst)
    rcases hes' with hes' | rfl
    · exact hin (hhi.trans hes')
    · rcases prefix_concat_iff.mp hhi with rfl | hpre
      · exact hlast st hst
      · exact hin hpre

theorem compacting_step (h : Compacting crc B w es fs ds) (hs : Step crc w a w')
    (hfl : isFlush a = false) (hne : isReopen a = false) (hroll : RollbackSafe w a) :
    ∃ es' fs' ds', Compacting crc B w' es' fs' ds' := by
  obtain ⟨st, hst, hback⟩ := h.top
  have hstock : Stocked B w' := by
    refine stocked_step h.stocked h.cycling hs hfl hne fun c o hc hstage => ?_
    exact (hback.removing c o [] hc hstage).2.2.2
  have hfiled := filed_step h.filed hs
  have hcy := cycling_step h.cycling h.filed hs
  cases hfault : appendFault a with
  | none =>
    exact ⟨es, fs, ds, {
      logs := manifest_step hs hne hfault ▸ h.logs
      stocked := hstock
      filed := hfiled
      cycling := hcy
      nextId := nextId_step h.nextId hs hne
      window := fun es' st' hlo hhi hst' =>
        backed_step (h.window es' st' hlo hhi hst') h.filed h.cycling hs hfl hne hfault }⟩
  | some fault =>
    have hroll := hroll fault hfault
    -- an output holds what the tables held, under an id that was given out
    have hout : ∀ {c : Cycle} {o : SsTable} {size : UInt64}, w.cycle = some c →
        c.stage = .written o size → (addEdit o size).Wf := by
      intro c o size hc hstage
      have hlt := (hback.ledger.output c o.id hc (.inr ⟨o, size, hstage, rfl⟩)).2
      have hmax := h.nextId
      obtain ⟨f, hf, rfl⟩ := hback.written c o size hc hstage
      exact addEdit_wf size (by omega) fun e he =>
        h.stocked.fits e (h.stocked.files f hf e he)
    have hrem : ∀ {c : Cycle} {o : SsTable} {id : Nat} {rest : List Nat}, w.cycle = some c →
        c.stage = .removing o (id :: rest) → (ManifestEdit.removeSstable id).Wf ∧
          ∃ st', ManifestState.applyAll {} (es ++ [.removeSstable id]) = .ok st' := by
      intro c o id rest hc hstage
      have hever := (hback.ledger.removing c o (id :: rest) hc hstage).2.1 id (by simp)
      obtain ⟨st', happ, _⟩ := apply_remove hever
      have hlt := hback.ledger.below id hever
      have hmax := h.nextId
      exact ⟨by show id ≤ u64Max; omega,
        st', applyAll_append.mpr ⟨st, hst, applyAll_cons.mpr ⟨st', happ, rfl⟩⟩⟩
    cases hs with
    | @compactAdd c o size _ m hc hstage hr =>
      obtain rfl := Option.some.inj hfault
      exact h.append (hout hc hstage) (applies_add size h.logs.applies) hroll hr rfl hstock hfiled
        hcy rfl (by simp) fun st st' happ hb => hb.add h.cycling hc hstage happ
    | @compactAddFail c o size _ m hc hstage hr =>
      obtain rfl := Option.some.inj hfault
      exact h.append (hout hc hstage) (applies_add size h.logs.applies) hroll hr rfl hstock hfiled
        hcy rfl (fun _ st hb => hb.idle) fun st st' happ hb =>
          (hb.add h.cycling hc hstage happ (m := m)).idle (m := m)
    | @compactRemove c o rest _ m id hc hstage hr =>
      obtain rfl := Option.some.inj hfault
      obtain ⟨hwf, happ⟩ := hrem hc hstage
      exact h.append hwf happ hroll hr rfl hstock hfiled hcy rfl (by simp)
        fun st st' happ hb => hb.remove h.stocked hc hstage happ
    | @compactRemoveFail c o rest _ m id hc hstage hr =>
      obtain rfl := Option.some.inj hfault
      obtain ⟨hwf, happ⟩ := hrem hc hstage
      exact h.append hwf happ hroll hr rfl hstock hfiled hcy rfl (fun _ st hb => hb.idle)
        fun st st' happ hb => (hb.remove h.stocked hc hstage happ (m := m)).idle (m := m)
    | flushAdd | flushAddFail | flushCheckpointDone | flushCheckpoint | flushCheckpointFail =>
      cases hfl
    | _ => cases hfault

end Compacting

/-! ## The start -/

theorem live_everAdded {es : List ManifestEdit} {st st' : ManifestState}
    (h : st.applyAll es = .ok st') (hst : ∀ id, st.isLive id = true → id ∈ st.everAdded) :
    ∀ id, st'.isLive id = true → id ∈ st'.everAdded := by
  induction es generalizing st st' with
  | nil => exact Except.ok.inj h ▸ hst
  | cons e es ih =>
    obtain ⟨st₁, happ, h⟩ := applyAll_cons.mp h
    refine ih h fun id hid => ?_
    rcases apply_ok happ with ⟨i, lo, hi, size, rfl, _⟩ | ⟨i, rfl, hever, _⟩ | ⟨_, _, _, _, _, rfl⟩
    · rw [mem_everAdded_add happ]
      exact ((isLive_add happ id).mp hid).symm.imp_right (hst id)
    · obtain ⟨st₂, happ₂, hev, hl, _⟩ := apply_remove hever
      obtain rfl : st₂ = st₁ := Except.ok.inj (happ₂.symm.trans happ)
      rw [hev]
      exact hst id ((hl id).mp hid).1
    · exact hst id hid

theorem mem_adopted {files : List SstFile} :
    id ∈ addedIds (adoptEdits st files) ↔ ∃ f ∈ files, Unrecorded st f ∧ f.table.id = id := by
  rw [mem_addedIds]
  constructor
  · rintro ⟨lo, hi, size, hmem⟩
    obtain ⟨f, hf, he⟩ := mem_map.mp hmem
    obtain ⟨hf, hun⟩ := mem_filter.mp hf
    exact ⟨f, hf, of_decide_eq_true hun, (ManifestEdit.addSstable.inj he).1⟩
  · rintro ⟨f, hf, hun, rfl⟩
    exact ⟨_, _, _, mem_map.mpr ⟨f, mem_filter.mpr ⟨hf, decide_eq_true hun⟩, rfl⟩⟩

theorem noRemove_adopt (st : ManifestState) (files : List SstFile) :
    NoRemove (adoptEdits st files) := by
  intro e he id
  obtain ⟨f, _, rfl⟩ := mem_map.mp he
  exact nofun

section Opened

variable {cfg : LsmConfig} {segs : List WalSegment} {file : Bytes} {sync : Nat}
  {files : List SstFile} {r : ManifestReplayResult}

/-- The list of an opened engine is the tables of the kept files. -/
theorem OpenedAs.mem_tables (ho : OpenedAs crc cfg segs file sync files w m r)
    (hids : (files.map (·.table.id)).Nodup) : t ∈ w.sstables ↔ ∃ f ∈ w.files, f.table = t := by
  have hnodup : (w.files.map (·.table.id)).Nodup := by
    rw [ho.files]
    exact hids.sublist (filter_sublist.map _)
  rw [ho.sstables, ← ho.files, mem_reverse, (insertTables_spec hnodup .nil (by simp)).2 t]
  simp

theorem OpenedAs.mem_files (ho : OpenedAs crc cfg segs file sync files w m r) {f : SstFile} :
    f ∈ w.files ↔ f ∈ files ∧ Survives r.state f := by
  rw [ho.files, keptFiles, mem_filter, decide_eq_true_iff]

/-- **An engine that was just opened** has exactly its live tables in the directory. -/
theorem backed_opened {found : List ManifestEdit} (ho : OpenedAs crc cfg segs file sync files w m r)
    (hids : (files.map (·.table.id)).Nodup) (hfound : ManifestState.applyAll {} found = .ok r.state)
    (hst : r.state.applyAll (adoptEdits r.state files) = .ok st) :
    Backed (inputRecords w.sstables) w st := by
  obtain ⟨_, _, hflush, hcycle, hgar, _⟩ := ho.idle
  have hlive := isLive_of_added (noRemove_adopt _ _) hst
  have hever : ∀ id, r.state.isLive id = true → id ∈ r.state.everAdded :=
    live_everAdded hfound (by simp [ManifestState.isLive])
  have hall : ∀ f ∈ w.files, st.isLive f.table.id = true := by
    intro f hf
    obtain ⟨hf, hsurv⟩ := ho.mem_files.mp hf
    rw [hlive]
    -- a kept file is live already, or is adopted
    by_cases hl : r.state.isLive f.table.id = true
    · exact .inl hl
    · exact .inr (mem_adopted.mpr
        ⟨f, hf, ⟨by simpa using hl, hsurv.resolve_left hl⟩, rfl⟩)
  have hknown := (adopt_known hst).1
  refine ⟨ledger_idle hflush hcycle hgar (fun id hid => ?_) (fun id hid => ?_) (fun t ht => ?_),
    ?_, ?_, ?_⟩
  · rcases hknown id hid with hid | ⟨f, hf, rfl⟩
    · exact ho.idsBelow.2 id hid
    · exact ho.idsBelow.1 f hf
  · rcases (hlive id).mp hid with hid | hid
    · obtain ⟨f, hf, rfl⟩ := ho.present id hid
      exact ⟨f, ho.mem_files.mpr ⟨hf, .inl hid⟩, rfl⟩
    · obtain ⟨f, hf, hun, rfl⟩ := mem_adopted.mp hid
      exact ⟨f, ho.mem_files.mpr ⟨hf, .inr hun.2⟩, rfl⟩
  · obtain ⟨f, hf, rfl⟩ := (ho.mem_tables hids).mp ht
    exact live_everAdded hst hever f.table.id (hall f hf)
  · refine covers_mono (covers_of_subset fun e he => he) fun t ht => ?_
    obtain ⟨f, hf, rfl⟩ := (ho.mem_tables hids).mp ht
    exact mem_liveTables.mpr ⟨f, hf, rfl, hall f hf⟩
  · intro c o size hc
    rw [hcycle] at hc
    cases hc
  · intro c o rest hc
    rw [hcycle] at hc
    cases hc

/-- It starts with every edit it found synced, if all it found was. -/
theorem compacting_opened (ho : OpenedAs crc cfg segs file file.length files w m r)
    (hids : (files.map (·.table.id)).Nodup) (hmax : w.nextId ≤ u64Max)
    (hseq : ∀ t ∈ w.sstables, ∀ e ∈ t.records, e.seq ≤ u64Max) :
    ∃ es, Compacting crc (inputRecords w.sstables) w es es es := by
  obtain ⟨_, _, hflush, hcycle, _, _⟩ := ho.idle
  obtain ⟨found, hstep, hfile, hfound⟩ := inStep_openFile ho.manifestOpened
  obtain ⟨hsound, hsynced⟩ : m.poisoned = false ∧ m.synced = (frames crc found).length := by
    have hopen := ho.manifestOpened
    unfold Manifest.openFile at hopen
    cases hrep : replayManifest crc file with
    | error err => rw [hrep] at hopen; cases hopen
    | ok r' =>
      rw [hrep] at hopen
      obtain ⟨rfl, rfl⟩ := Prod.mk.inj (Except.ok.inj hopen)
      have hlen := hstep.len rfl
      obtain ⟨es, rest, hsplit, _, _, hvalid, _⟩ := replayLoop_sound (Nat.lt_succ_self _)
        (show replayLoop crc (file.length + 1) 0 file {} = _ from hrep)
      have hle : r'.validLength ≤ file.length := by
        rw [hsplit, length_append]
        omega
      refine ⟨rfl, ?_⟩
      show min file.length r'.validLength = _
      have hlen' : r'.validLength = (frames crc found).length := hlen
      omega
  -- all of the manifest found is synced: the window is one point
  have hlogs : Logs crc m found found found := {
    file := hstep.file
    wf := hstep.wf
    applies := hstep.applies
    floor := ⟨prefix_refl _, prefix_refl _⟩
    synced := hsynced
    len := fun hp => .inr (hstep.len hp) }
  -- opening adopts the files the manifest does not know
  have hwf : ∀ e ∈ adoptEdits r.state files, e.Wf := by
    intro e he
    obtain ⟨f, hf, rfl⟩ := mem_map.mp he
    obtain ⟨hf, hun⟩ := mem_filter.mp hf
    have hkept : f ∈ w.files := ho.mem_files.mpr ⟨hf, .inr (of_decide_eq_true hun).2⟩
    have hlt := ho.idsBelow.1 f hf
    exact addEdit_wf f.size (by omega) (hseq f.table ((ho.mem_tables hids).mpr ⟨f, hkept, rfl⟩))
  obtain ⟨st, hst⟩ := applies_adds (files.filter fun f => Unrecorded r.state f) ⟨_, hfound⟩
  obtain ⟨ds, hall, _, hds⟩ := logs_appendAll hlogs hsound hwf ⟨st, hst⟩
  obtain rfl := hds rfl
  refine ⟨found ++ adoptEdits r.state files, ho.manifest ▸ hall, ?_, ?_, cycling_none hcycle,
    hmax, ?_⟩
  · exact {
      idle := hflush
      fits := fun e he => by
        obtain ⟨t, ht, he⟩ := mem_inputRecords.mp he
        exact hseq t ht e he
      files := fun f hf e he =>
        mem_inputRecords.mpr ⟨f.table, (ho.mem_tables hids).mpr ⟨f, hf, rfl⟩, he⟩
      tables := fun t ht e he => mem_inputRecords.mpr ⟨t, ht, he⟩
      list := covers_of_subset fun e he => he
      inputs := by intro c hc; rw [hcycle] at hc; cases hc
      output := by intro c o hc; rw [hcycle] at hc; cases hc }
  · refine filed_idle hflush hcycle ?_ fun f hf => ho.idsBelow.1 f (ho.mem_files.mp hf).1
    rw [ho.files]
    exact hids.sublist (filter_sublist.map _)
  · intro es' st' hlo hhi hst'
    obtain rfl := hlo.eq_of_length_le hhi.length_le
    obtain ⟨st₁, hst₁, hrest⟩ := applyAll_append.mp hst'
    obtain rfl := Except.ok.inj (hst₁.symm.trans hfound)
    exact backed_opened ho hids hfound hrest

end Opened

/-- Cycles, readers and writers in any interleaving, failures anywhere but in a stale
rollback. The flush thread publishes nothing. -/
def CompactionRun (w : World) (a : Act) : Prop :=
  (isFlush a = false ∧ isReopen a = false) ∧ RollbackSafe w a

instance (w : World) (a : Act) : Decidable (CompactionRun w a) :=
  inferInstanceAs (Decidable (_ ∧ _))

/--
**Cycles lose nothing, wherever they fail and wherever a crash follows.** An engine opens
a directory and runs cycles, each of which may fail at any of its edits. Whatever part of
the manifest behind its synced bytes a crash then leaves: the manifest replays; the file
of every live table is there; the live tables have the newest version of every key, as it
was at the start; and `open` succeeds, with tables that have it too.
-/
theorem cycles_keep_newest {cfg : LsmConfig} {segs : List WalSegment} {file : Bytes}
    {files : List SstFile} {w₀ : World} {n : Nat} (hids : (files.map (·.table.id)).Nodup)
    (hopen : openEngine crc cfg segs file file.length files = .ok w₀) (hmax : w₀.nextId ≤ u64Max)
    (hseq : ∀ t ∈ w₀.sstables, ∀ e ∈ t.records, e.seq ≤ u64Max)
    (hcoh : Coherent (inputRecords w₀.sstables))
    (hreach : Reach (World.act crc) CompactionRun w₀ w) (hn : w.manifest.synced ≤ n) :
    ∃ m r, Manifest.openFile crc (w.manifest.file.take n) w.manifest.synced = .ok (m, r) ∧
      (∀ id, r.state.isLive id = true → ∃ f ∈ w.files, f.table.id = id) ∧
      (∀ key, best (inputRecords (liveTables w r.state)) key u64Max =
        best (inputRecords w₀.sstables) key u64Max) ∧
      ∀ (segs : List WalSegment) (lost : List Nat), (∀ id ∈ lost, r.state.isLive id = false) →
        ∃ w₁, openEngine crc w.cfg segs (w.manifest.file.take n) w.manifest.synced
            (w.files.filter fun f => f.table.id ∉ lost) = .ok w₁ ∧
          ∀ key, best (inputRecords w₁.sstables) key u64Max =
            best (inputRecords w₀.sstables) key u64Max := by
  obtain ⟨m₀, r₀, ho⟩ := openEngine_ok hids hopen
  obtain ⟨es₀, hstart⟩ := compacting_opened ho hids hmax hseq
  obtain ⟨es, fs, ds, hc⟩ : ∃ es fs ds, Compacting crc (inputRecords w₀.sstables) w es fs ds :=
    reach_invariant (P := fun w => ∃ es fs ds, Compacting crc (inputRecords w₀.sstables) w es fs ds)
      hreach ⟨es₀, es₀, es₀, hstart⟩
      fun ⟨_, _, _, h⟩ hcond hs => compacting_step h hs hcond.1.1 hcond.1.2 hcond.2
  -- the manifest found after the crash lies in the window
  obtain ⟨es₁, m, r, hfile, hst, hhi, hlo, _, _⟩ := logs_openFile hc.logs hn
  have hb : Backed (inputRecords w₀.sstables) w r.state := hc.window es₁ r.state hlo hhi hst
  refine ⟨m, r, hfile, hb.ledger.present, fun key => ?_, fun segs lost hlost => ?_⟩
  · refine best_eq_of_covers hcoh (fun e he => ?_) hb.live key
    obtain ⟨t, ht, he⟩ := mem_inputRecords.mp he
    obtain ⟨f, hf, rfl, _⟩ := mem_liveTables.mp ht
    exact hc.stocked.files f hf e he
  · have hnodup : ((w.files.filter fun f => f.table.id ∉ lost).map (·.table.id)).Nodup :=
      hc.filed.nodup.sublist (filter_sublist.map _)
    have hstay : ∀ f ∈ w.files, r.state.isLive f.table.id = true →
        f ∈ w.files.filter fun f => f.table.id ∉ lost := by
      intro f hf hl
      have hnot : f.table.id ∉ lost := fun hin => by simp [hlost _ hin] at hl
      exact mem_filter.mpr ⟨hf, by simpa using hnot⟩
    obtain ⟨w₁, hw₁⟩ : ∃ w₁, openEngine crc w.cfg segs (w.manifest.file.take n)
        w.manifest.synced (w.files.filter fun f => f.table.id ∉ lost) = .ok w₁ := by
      refine openEngine_returns segs hnodup hfile fun id hid => ?_
      obtain ⟨f, hf, rfl⟩ := hb.ledger.present id hid
      exact ⟨f, hstay f hf hid, rfl⟩
    obtain ⟨m₁, r₁, ho₁⟩ := openEngine_ok hnodup hw₁
    obtain ⟨rfl, rfl⟩ := Prod.mk.inj (Except.ok.inj (hfile.symm.trans ho₁.manifestOpened))
    refine ⟨w₁, hw₁, fun key => best_eq_of_covers hcoh (fun e he => ?_) ?_ key⟩
    · obtain ⟨t, ht, he⟩ := mem_inputRecords.mp he
      obtain ⟨f, hf, rfl⟩ := (ho₁.mem_tables hnodup).mp ht
      exact hc.stocked.files f (mem_filter.mp (ho₁.mem_files.mp hf).1).1 e he
    · refine covers_mono hb.live fun t ht => ?_
      obtain ⟨f, hf, rfl, hl⟩ := mem_liveTables.mp ht
      exact (ho₁.mem_tables hnodup).mpr ⟨f, ho₁.mem_files.mpr ⟨hstay f hf hl, .inl hl⟩, rfl⟩

/-! ## Two runs -/

/-- A table file with one record. -/
def oneRecordFile (id seq : Nat) (key : Key) : SstFile where
  table := ⟨id, [⟨key, seq, .put [1]⟩], pairwise_singleton _ _⟩
  size := 0

def oneTableConfig : LsmConfig where
  memtableMaxSizeBytes := 1024
  maxImmutableMemtables := 4
  compactionTriggerCount := 1
  maxBatchOps := 4

/-- A cycle up to its first edit, which meets `fault`. -/
def cycleRun (fault : AppendFault) : List Act :=
  [.compactCapture, .compactSample, .compactAllocate, .compactWrite 0, .compactAdd fault]

/-- A cycle fails in its first removal; the next one completes and its inputs are unlinked;
the one after fails in the write of its first edit. -/
def failedCyclesRun (fault : AppendFault) : List Act :=
  cycleRun .none ++ [.compactRemove fault] ++ cycleRun .none ++
    [.compactRemove .none, .compactRemove .none, .compactSplice, .unlink 1, .unlink 2] ++
    cycleRun (.write 0 .none)

/-- **A stale rollback brings back a table whose file is gone.** The first failure is in the
sync of a removal, the second in a write: it takes back the removal of table 1. -/
theorem stale_rollback_revives_unlinked :
    ∃ w₀ w, openEngine crc32c oneTableConfig [] [] 0
        [oneRecordFile 1 1 [107], oneRecordFile 2 2 [108]] = .ok w₀ ∧
      Reach (World.act crc32c) (fun _ a => isFlush a = false ∧ isReopen a = false) w₀ w ∧
      (∃ r, replayManifest crc32c w.manifest.file = .ok r ∧ r.state.isLive 1 = true ∧
        ∀ f ∈ w.files, f.table.id ≠ 1) ∧
      (openEngine crc32c w.cfg [] w.manifest.file w.manifest.synced w.files).isOk = false := by
  obtain ⟨w₀, hopen, hrun⟩ : ∃ w₀, openEngine crc32c oneTableConfig [] [] 0
        [oneRecordFile 1 1 [107], oneRecordFile 2 2 [108]] = .ok w₀ ∧
      (run (World.act crc32c) (fun _ a => isFlush a = false ∧ isReopen a = false) w₀
        (failedCyclesRun .sync)).any (fun w =>
          decide ((replayManifest crc32c w.manifest.file).toOption.any (fun r =>
            r.state.isLive 1 = true ∧ ∀ f ∈ w.files, f.table.id ≠ 1) = true ∧
          (openEngine crc32c w.cfg [] w.manifest.file w.manifest.synced w.files).isOk = false)) =
        true := exists_ok (by decide +kernel)
  obtain ⟨w, hreach, hrep, hbad⟩ := exists_reach_of_run _ hrun
  exact ⟨w₀, w, hopen, hreach, exists_ok hrep, hbad⟩

/-- The same cycles with the first failure in a write. -/
theorem cycles_keep_newest_failed_writes :
    ∃ w₀ w : World, w₀.sstables.length = 2 ∧ w.sstables.length = 1 ∧
      ∃ m r, Manifest.openFile crc32c (w.manifest.file.take w.manifest.synced)
          w.manifest.synced = .ok (m, r) ∧
        (∀ id, r.state.isLive id = true → ∃ f ∈ w.files, f.table.id = id) ∧
        (∀ key, best (inputRecords (liveTables w r.state)) key u64Max =
          best (inputRecords w₀.sstables) key u64Max) ∧
        ∀ (segs : List WalSegment) (lost : List Nat), (∀ id ∈ lost, r.state.isLive id = false) →
          ∃ w₁, openEngine crc32c w.cfg segs (w.manifest.file.take w.manifest.synced)
              w.manifest.synced (w.files.filter fun f => f.table.id ∉ lost) = .ok w₁ ∧
            ∀ key, best (inputRecords w₁.sstables) key u64Max =
              best (inputRecords w₀.sstables) key u64Max := by
  obtain ⟨w₀, hopen, hlen, hmax, hseq, hcoh, hrun⟩ : ∃ w₀ : World,
      openEngine crc32c oneTableConfig [] [] 0
        [oneRecordFile 1 1 [107], oneRecordFile 2 2 [108]] = .ok w₀ ∧ w₀.sstables.length = 2 ∧
      w₀.nextId ≤ u64Max ∧ (∀ t ∈ w₀.sstables, ∀ e ∈ t.records, e.seq ≤ u64Max) ∧
      (∀ v ∈ inputRecords w₀.sstables, ∀ v' ∈ inputRecords w₀.sstables, v.key = v'.key →
        v.seq = v'.seq → v = v') ∧
      (run (World.act crc32c) CompactionRun w₀ (failedCyclesRun (.write 5 .none))).any
        (fun w => decide (w.sstables.length = 1)) = true := exists_ok (by decide +kernel)
  obtain ⟨w, hreach, hone⟩ := exists_reach_of_run _ hrun
  exact ⟨w₀, w, hlen, hone, cycles_keep_newest (by decide) hopen hmax hseq hcoh hreach
    (Nat.le_refl _)⟩

end RubixDb.Proof
