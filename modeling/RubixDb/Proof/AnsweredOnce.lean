import RubixDb.Execution.BatchCoordinator
import RubixDb.Lib.Run

/-!
# Every accepted request is answered once

A request that was accepted is in one of three places: in the queue, in the batch under a
guard, or answered. `Once` counts it there exactly once; as a slot is only completed for a
request that leaves one of the first two places, none is filled twice, and when the
coordinator thread is gone and the queue empty all have been filled.

The queue need not be empty then. `CoordinatorAliveGuard` fails what is queued after a panic
while the pool runs; after a panic while it drains it does not, and those callers wait
forever.
-/

namespace RubixDb.Proof

open Lib Coordinator List
open RubixDb.GroupCommit (Position)

/-! ## What one step can do -/

/-- One step of the pool, by outcome. -/
inductive PoolStep (p : Pool) : PoolAct → Pool → Prop where
  | submit : p.poolState = .running →
      e.requestId = p.lastRequestId + 1 →
      PoolStep p (.submit op) { p with
        entries := p.entries ++ [e]
        queuedBytes := bytes
        lastRequestId := p.lastRequestId + 1
        submitted := p.submitted ++ [e] }
  | shutdown : p.poolState = .running → PoolStep p .shutdown { p with poolState := .draining }
  | wait : p.held[i]? = some result →
      PoolStep p (.wait i) { p with held := p.held.eraseIdx i, taken := p.taken ++ [result] }
  | drain : p.phase = .idle →
      PoolStep p .drain { p with
        entries := p.entries.drop n
        queuedBytes := bytes
        phase := .appending (p.entries.take n) [] }
  | exit : p.phase = .idle → p.entries = [] → p.poolState ≠ .running →
      PoolStep p .exit { p with phase := .exiting }
  | append : p.phase = .appending (e :: rest) appended →
      p.lastSeq < position.seq →
      PoolStep p (.append (some position)) { p with
        phase := .appending rest (appended ++ [(e, position)])
        appends := p.appends ++ [(e, position)]
        lastSeq := position.seq }
  | appendFails : p.phase = .appending (e :: rest) appended →
      PoolStep p (.append none)
        { p.complete e.requestId (.error .append) with phase := .refusing rest appended }
  | refuse :
      p.phase = .refusing (e :: rest) appended →
      PoolStep p .refuse
        { p.complete e.requestId (.error .notAttempted) with phase := .refusing rest appended }
  | awaits :
      p.phase = .appending [] appended ∨ p.phase = .refusing [] appended →
      PoolStep p .appendsDone { p with phase := .awaiting appended }
  /-- The first append of the batch failed. -/
  | nothingAppended : p.phase = .appending [] [] ∨ p.phase = .refusing [] [] →
      PoolStep p .appendsDone { p with phase := .idle }
  | durable : p.phase = .awaiting appended →
      PoolStep p (.awaitDone true) { p with
        phase := .completing true appended
        durable := p.durable ++ (appended.getLast?.map (·.2.seq)).toList }
  | notDurable : p.phase = .awaiting appended →
      PoolStep p (.awaitDone false) { p with phase := .completing false appended }
  | completeNext :
      p.phase = .completing succeeded ((e, position) :: rest) →
      PoolStep p .completeNext
        { p.complete e.requestId (if succeeded then .ok position else .error .batch) with
          phase := .completing succeeded rest }
  | batchDone : p.phase = .completing succeeded [] →
      PoolStep p .completeNext { p with phase := .idle }
  | panic : p.phase ≠ .terminated →
      PoolStep p .panic { p with phase := .unwinding p.phase.armed }
  | dropGuard : p.phase = .unwinding (e :: armed) →
      PoolStep p .dropGuard
        { p.complete e.requestId (.error .processorPanicked) with phase := .unwinding armed }
  | dropAlive : p.phase = .unwinding [] ∨ p.phase = .exiting → PoolStep p .dropAlive p.aliveDrop

variable {p p' : Pool} {a : PoolAct}

theorem step_of_threadAct (h : p.threadAct a = some p') : PoolStep p a p' := by
  have hdone : ∀ {appended : List (QueueEntry × Position)},
      p.phase = .appending [] appended ∨ p.phase = .refusing [] appended →
      PoolStep p .appendsDone
        { p with phase := if appended.isEmpty then .idle else .awaiting appended } := by
    intro appended hphase
    cases appended with
    | nil => exact .nothingAppended hphase
    | cons x appended => exact .awaits hphase
  revert h
  -- the cases in which the thread has a step, in the order of the definition
  fun_cases Pool.threadAct p a <;> intro h <;> cases h
  · exact .drain ‹_›
  · rename_i hphase hexit
    exact .exit hphase (isEmpty_iff.mp hexit.1) hexit.2
  · exact .append ‹_› ‹_›
  · exact .appendFails ‹_›
  · exact .refuse ‹_›
  · exact hdone (.inl ‹_›)
  · exact hdone (.inr ‹_›)
  · rename_i succeeds _ _
    cases succeeds with
    | true => exact .durable ‹_›
    | false => exact .notDurable ‹_›
  · exact .completeNext ‹_›
  · exact .batchDone ‹_›
  · exact .panic ‹_›
  · exact .dropGuard ‹_›
  · exact .dropAlive (.inl ‹_›)
  · exact .dropAlive (.inr ‹_›)

/-- Completing a slot changes nothing but what the slots hold. -/
theorem complete_frame (p : Pool) (id : Nat) (outcome : Outcome) :
    ∃ held, p.complete id outcome = { p with held := held } ∧
      ∀ r ∈ held, r ∈ p.held ∨ r = (id, outcome) := by
  unfold Pool.complete
  split
  · exact ⟨p.held, rfl, fun r hr => .inl hr⟩
  · refine ⟨_, rfl, fun r hr => ?_⟩
    rcases mem_append.mp hr with hr | hr
    · exact .inl hr
    · exact .inr (mem_singleton.mp hr)

/-- Every step is one of those. -/
theorem poolStep_of_act (h : p.act a = some p') : PoolStep p a p' := by
  cases a with
  | submit op =>
    simp only [Pool.act] at h
    split_ifs at h with hrun
    cases h
    exact .submit hrun.1 rfl
  | shutdown =>
    simp only [Pool.act] at h
    split at h
    · cases h
      exact .shutdown ‹_›
    · cases h
  | wait i =>
    simp only [Pool.act] at h
    split at h
    · cases h
      exact .wait ‹_›
    · cases h
  | _ => exact step_of_threadAct h

/-! ## Where a request is -/

/-- The requests in the queue, under a guard, and answered. -/
def places (p : Pool) : List Nat :=
  p.entries.map (·.requestId) ++ (p.phase.armed.map (·.requestId) ++
    (p.taken.map (·.1) ++ p.held.map (·.1)))

/-- Every accepted request is in exactly one place. -/
def Once (p : Pool) : Prop :=
  ∀ id, (places p).count id = if 0 < id ∧ id ≤ p.lastRequestId then 1 else 0

theorem count_places (p : Pool) (id : Nat) : (places p).count id =
    (p.entries.map (·.requestId)).count id + ((p.phase.armed.map (·.requestId)).count id +
      ((p.taken.map (·.1)).count id + (p.held.map (·.1)).count id)) := by
  unfold places
  rw [count_append, count_append, count_append]

theorem Once.count_le (h : Once p) (id : Nat) : (places p).count id ≤ 1 := by
  rw [h id]
  split <;> omega

/-- A request that is queued or under a guard has no result in its slot. -/
theorem Once.not_held {e : QueueEntry} (h : Once p)
    (he : e ∈ p.entries ∨ e ∈ p.phase.armed) : p.held.any (·.1 = e.requestId) = false := by
  refine Bool.eq_false_iff.mpr fun hany => ?_
  obtain ⟨r, hr, hid⟩ := any_eq_true.mp hany
  have hheld : 0 < (p.held.map (·.1)).count e.requestId :=
    count_pos_iff.mpr (mem_map.mpr ⟨r, hr, of_decide_eq_true hid⟩)
  have hle := h.count_le e.requestId
  rw [count_places] at hle
  rcases he with he | he
  · have hpos : 0 < (p.entries.map (·.requestId)).count e.requestId :=
      count_pos_iff.mpr (mem_map.mpr ⟨e, he, rfl⟩)
    omega
  · have hpos : 0 < (p.phase.armed.map (·.requestId)).count e.requestId :=
      count_pos_iff.mpr (mem_map.mpr ⟨e, he, rfl⟩)
    omega

theorem complete_eq {id : Nat} {outcome : Outcome} (h : p.held.any (·.1 = id) = false) :
    p.complete id outcome = { p with held := p.held ++ [(id, outcome)] } := by
  unfold Pool.complete
  rw [if_neg (by rw [h]; simp)]

/-- A guarded request is completed and leaves the guarded ones. -/
theorem Once.complete {e : QueueEntry} {outcome : Outcome} {phase : Phase}
    {before after : List QueueEntry} (h : Once p) (harmed : p.phase.armed = before ++ e :: after)
    (hphase : phase.armed = before ++ after) :
    Once { p.complete e.requestId outcome with phase := phase } := by
  have he : e ∈ p.phase.armed := by
    rw [harmed]
    simp
  rw [complete_eq (h.not_held (.inr he))]
  intro id
  have hold := h id
  rw [count_places, harmed] at hold
  rw [count_places]
  rw [hphase]
  simp only [map_append, map_cons, count_append, count_cons, map_nil,
    count_nil] at hold ⊢
  omega

/-- `CoordinatorAliveGuard` fails every request in the queue. -/
theorem failQueued_eq : ∀ {es : List QueueEntry} {p : Pool},
    (∀ e ∈ es, p.held.any (·.1 = e.requestId) = false) → (es.map (·.requestId)).Nodup →
    p.failQueued es = { p with
      held := p.held ++ es.map fun e => (e.requestId, .error .coordinatorTerminated) } := by
  intro es
  induction es with
  | nil =>
    simp [Pool.failQueued]
  | cons e es ih =>
    intro p hfree hnodup
    rw [map_cons, nodup_cons] at hnodup
    rw [Pool.failQueued, complete_eq (hfree e (by simp)), ih ?_ hnodup.2]
    · simp
    · intro e' he'
      have hne : e.requestId ≠ e'.requestId := fun heq =>
        hnodup.1 (mem_map.mpr ⟨e', he', heq.symm⟩)
      rw [any_append, hfree e' (mem_cons_of_mem _ he')]
      simp [hne]

theorem Once.nodup_entries (h : Once p) : (p.entries.map (·.requestId)).Nodup := by
  rw [nodup_iff_count_le_one]
  intro id
  have hle := h.count_le id
  rw [count_places] at hle
  omega

theorem Once.aliveDrop (h : Once p) (harmed : p.phase.armed = []) : Once p.aliveDrop := by
  have hfail : Once { p.failQueued p.entries with
      entries := []
      queuedBytes := p.queuedBytes - Pool.bytesOf p.entries
      poolState := .failed
      phase := .terminated } := by
    rw [failQueued_eq (fun e he => h.not_held (.inl he)) h.nodup_entries]
    intro id
    have hold := h id
    rw [count_places, harmed] at hold
    rw [count_places]
    simp only [map_append, map_map, count_append, Phase.armed, map_nil,
      count_nil] at hold ⊢
    have hsame : ((fun r : Nat × Outcome => r.1) ∘ fun e : QueueEntry =>
        (e.requestId, (.error .coordinatorTerminated : Outcome))) = (·.requestId) := rfl
    rw [hsame]
    omega
  have hstop : ∀ state, Once { p with poolState := state, phase := .terminated } := by
    intro state id
    have hold := h id
    rw [count_places, harmed] at hold
    rw [count_places]
    exact hold
  unfold Pool.aliveDrop
  split
  · exact hstop _
  · exact hstop _
  · exact hfail
  · exact hfail

/-- Nothing goes from one place to another. -/
theorem Once.stay (h : Once p) (hentries : p'.entries = p.entries)
    (harmed : p'.phase.armed = p.phase.armed) (htaken : p'.taken = p.taken)
    (hheld : p'.held = p.held) (hnext : p'.lastRequestId = p.lastRequestId) : Once p' := by
  have hplaces : places p' = places p := by
    unfold places
    rw [hentries, harmed, htaken, hheld]
  intro id
  rw [hplaces, hnext]
  exact h id

theorem once_step (h : Once p) (hs : PoolStep p a p') : Once p' := by
  cases hs with
  | @submit op e bytes _ hid =>
    intro id
    have hold := h id
    rw [count_places] at hold ⊢
    simp only [map_append, count_append, map_cons, map_nil, hid,
      count_cons, count_nil, beq_iff_eq]
    -- the new number is in no place yet
    split at hold <;> split <;> split <;> omega
  | @wait i result hi =>
    intro id
    have hold := h id
    rw [count_places] at hold ⊢
    obtain ⟨hlt, hget⟩ := List.getElem?_eq_some_iff.mp hi
    have hperm := (getElem_cons_eraseIdx_perm hlt).map (·.1)
    have hcount := hperm.count_eq id
    rw [hget, map_cons, count_cons] at hcount
    simp only [map_append, count_append, map_cons, map_nil, count_cons,
      count_nil] at hold ⊢
    omega
  | @drain n bytes hphase =>
    intro id
    have hold := h id
    rw [count_places, hphase] at hold
    rw [count_places]
    have hsplit := congrArg (fun l => (l.map (·.requestId)).count id)
      (take_append_drop n p.entries)
    simp only [map_append, count_append, Phase.armed, map_nil, nil_append,
      count_nil] at hold hsplit ⊢
    omega
  | exit hphase => exact h.stay rfl (by rw [hphase]; rfl) rfl rfl rfl
  | @append e rest appended position hphase =>
    refine h.stay rfl ?_ rfl rfl rfl
    rw [hphase]
    show (appended ++ [(e, position)]).map (·.1) ++ rest = appended.map (·.1) ++ e :: rest
    rw [map_append, append_assoc]
    rfl
  | @appendFails e rest appended hphase | @refuse e rest appended hphase =>
    exact h.complete (by rw [hphase]; rfl) rfl
  | awaits hphase =>
    refine h.stay rfl ?_ rfl rfl rfl
    rcases hphase with hphase | hphase
    · rw [hphase]; exact (append_nil _).symm
    · rw [hphase]; exact (append_nil _).symm
  | nothingAppended hphase =>
    refine h.stay rfl ?_ rfl rfl rfl
    rcases hphase with hphase | hphase
    · rw [hphase]; rfl
    · rw [hphase]; rfl
  | durable hphase | notDurable hphase | batchDone hphase =>
    exact h.stay rfl (by rw [hphase]; rfl) rfl rfl rfl
  | @completeNext succeeded e position rest hphase =>
    have harmed : p.phase.armed = [] ++ e :: rest.map (·.1) := by rw [hphase]; rfl
    exact h.complete harmed rfl
  | panic | shutdown => exact h
  | @dropGuard e armed hphase =>
    have harmed : p.phase.armed = [] ++ e :: armed := by rw [hphase]; rfl
    exact h.complete harmed rfl
  | dropAlive hphase =>
    refine h.aliveDrop ?_
    rcases hphase with hphase | hphase
    · rw [hphase]; rfl
    · rw [hphase]; rfl

/-! ## What the queue holds when the thread is gone -/

/-- After a panic while the pool drains, the thread's guard finds the queue empty. -/
def DropsEmpty (p : Pool) (a : PoolAct) : Prop :=
  a = .dropAlive → p.phase = .unwinding [] → p.poolState = .draining → p.entries = []

instance (p : Pool) (a : PoolAct) : Decidable (DropsEmpty p a) :=
  inferInstanceAs (Decidable (_ → _ → _ → _))

structure Closing (p : Pool) : Prop where
  alive : p.phase ≠ .terminated → p.poolState = .running ∨ p.poolState = .draining
  /-- The loop ends only when nothing can come any more. -/
  exiting : p.phase = .exiting → p.entries = [] ∧ p.poolState ≠ .running
  terminated : p.phase = .terminated → p.entries = [] ∧ p.poolState ≠ .running

/-- The thread goes on, not to its end. -/
theorem Closing.goOn {phase : Phase} (h : Closing p) (hlive : p.phase ≠ .terminated)
    (hne : phase ≠ .exiting) (hnt : phase ≠ .terminated) (hphase : p'.phase = phase)
    (hstate : p'.poolState = p.poolState) : Closing p' where
  alive := fun _ => hstate ▸ h.alive hlive
  exiting := fun hx => absurd (hphase.symm.trans hx) hne
  terminated := fun hx => absurd (hphase.symm.trans hx) hnt

theorem Closing.aliveDrop (h : Closing p) (hsafe : DropsEmpty p .dropAlive)
    (hphase : p.phase = .unwinding [] ∨ p.phase = .exiting) : Closing p.aliveDrop := by
  have hlive : p.phase ≠ .terminated := by
    rcases hphase with hphase | hphase <;> rw [hphase] <;> simp
  have hempty : p.poolState = .draining → p.entries = [] := by
    intro hdrain
    rcases hphase with hphase | hphase
    · exact hsafe rfl hphase hdrain
    · exact (h.exiting hphase).1
  unfold Pool.aliveDrop
  rcases h.alive hlive with hstate | hstate
  · rw [hstate]
    exact ⟨fun hne => absurd rfl hne, fun hx => (by cases hx), fun _ => ⟨rfl, by simp⟩⟩
  · rw [hstate]
    exact ⟨fun hne => absurd rfl hne, fun hx => (by cases hx),
      fun _ => ⟨hempty hstate, by simp⟩⟩

theorem closing_step (h : Closing p) (hsafe : DropsEmpty p a) (hs : PoolStep p a p') :
    Closing p' := by
  cases hs with
  | submit hrun =>
    exact {
      alive := h.alive
      exiting := fun hx => absurd hrun (h.exiting hx).2
      terminated := fun hx => absurd hrun (h.terminated hx).2 }
  | shutdown hrun =>
    exact {
      alive := fun _ => .inr rfl
      exiting := fun hx => absurd hrun (h.exiting hx).2
      terminated := fun hx => absurd hrun (h.terminated hx).2 }
  | wait => exact { h with }
  | exit hphase hempty hstate =>
    exact {
      alive := fun _ => h.alive (by rw [hphase]; simp)
      exiting := fun _ => ⟨hempty, hstate⟩
      terminated := fun hx => by cases hx }
  | drain hphase | append hphase | durable hphase | notDurable hphase | batchDone hphase =>
    exact h.goOn (by rw [hphase]; simp) (by simp) (by simp) rfl rfl
  | appendFails hphase | refuse hphase | completeNext hphase | dropGuard hphase =>
    obtain ⟨held, heq, _⟩ := complete_frame p _ _
    rw [heq]
    exact h.goOn (by rw [hphase]; simp) (by simp) (by simp) rfl rfl
  | awaits hphase | nothingAppended hphase =>
    refine h.goOn ?_ (by simp) (by simp) rfl rfl
    rcases hphase with hphase | hphase <;> rw [hphase] <;> simp
  | panic hlive => exact h.goOn hlive (by simp) (by simp) rfl rfl
  | dropAlive hphase => exact h.aliveDrop hsafe hphase

/-! ## What an answer stands for -/

/-- The part of the batch that was appended and is not answered yet. -/
def appendedOf : Phase → List (QueueEntry × Position)
  | .appending _ appended | .refusing _ appended | .awaiting appended => appended
  | .completing _ rest => rest
  | _ => []

/-- The request was submitted, its own record was appended at the position, and
`await_durable` has succeeded for a number at or above it. -/
def Fulfilled (p : Pool) (id : Nat) (position : Position) : Prop :=
  ∃ e ∈ p.submitted, e.requestId = id ∧ (e, position) ∈ p.appends ∧
    ∃ m ∈ p.durable, position.seq ≤ m

structure Honest (p : Pool) : Prop where
  numbered : p.submitted.map (·.requestId) = List.range' 1 p.lastRequestId
  known : ∀ e, e ∈ p.entries ∨ e ∈ p.phase.armed → e ∈ p.submitted
  appended : ∀ x ∈ appendedOf p.phase, x ∈ p.appends ∧ x.2.seq ≤ p.lastSeq
  /-- The last append of the batch is the last of all. -/
  last : ∀ x, (appendedOf p.phase).getLast? = some x → x.2.seq = p.lastSeq
  durable : ∀ rest, p.phase = .completing true rest →
    ∀ x ∈ rest, ∃ m ∈ p.durable, x.2.seq ≤ m
  answers : ∀ r ∈ p.taken ++ p.held, ∀ position, r.2 = .ok position → Fulfilled p r.1 position

/-- What the thread does next concerns fewer requests, and none it has still to answer
`Ok`. -/
theorem Honest.goOn {phase : Phase} (h : Honest p) (harmed : ∀ e ∈ phase.armed, e ∈ p.phase.armed)
    (happended : appendedOf phase <:+ appendedOf p.phase)
    (hok : ∀ rest, phase ≠ .completing true rest) : Honest { p with phase := phase } :=
  { h with
    known := by
      intro e he
      rcases he with he | he
      · exact h.known e (.inl he)
      · exact h.known e (.inr (harmed e he))
    appended := fun x hx => h.appended x (happended.subset hx)
    last := by
      intro x hx
      obtain ⟨front, hfront⟩ := happended
      refine h.last x ?_
      rw [← hfront, List.getLast?_append, hx]
      rfl
    durable := fun rest hphase => absurd hphase (hok rest) }

/-- A request is answered with an error. -/
theorem Honest.refuse (h : Honest p) (id : Nat) (err : RequestError) :
    Honest (p.complete id (.error err)) := by
  obtain ⟨held, heq, hheld⟩ := complete_frame p id (.error err)
  rw [heq]
  exact { h with
    answers := by
      intro r hr position hpos
      rcases mem_append.mp hr with hr | hr
      · exact h.answers r (mem_append_left _ hr) position hpos
      · rcases hheld r hr with hr | rfl
        · exact h.answers r (mem_append_right _ hr) position hpos
        · cases hpos }

theorem Honest.failQueued : ∀ {es : List QueueEntry} {p : Pool}, Honest p →
    Honest (p.failQueued es) := by
  intro es
  induction es with
  | nil => exact fun h => h
  | cons e es ih => exact fun h => ih (h.refuse _ _)

theorem Fulfilled.mono {id : Nat} {position : Position} (h : Fulfilled p id position)
    (hsub : ∀ e ∈ p.submitted, e ∈ p'.submitted) (happ : ∀ x ∈ p.appends, x ∈ p'.appends)
    (hdur : ∀ m ∈ p.durable, m ∈ p'.durable) : Fulfilled p' id position := by
  obtain ⟨e, he, hid, hx, m, hm, hle⟩ := h
  exact ⟨e, hsub e he, hid, happ _ hx, m, hdur m hm, hle⟩

@[simp] theorem complete_phase (p : Pool) (id : Nat) (outcome : Outcome) :
    (p.complete id outcome).phase = p.phase := by
  obtain ⟨held, heq, _⟩ := complete_frame p id outcome
  rw [heq]

theorem Honest.aliveDrop (h : Honest p) : Honest p.aliveDrop := by
  have hstop : ∀ state, Honest { p with poolState := state, phase := .terminated } := fun state =>
    { @Honest.goOn p .terminated h (by simp [Phase.armed]) nil_suffix (by simp) with }
  have hfail : Honest { p.failQueued p.entries with
      entries := []
      queuedBytes := p.queuedBytes - Pool.bytesOf p.entries
      poolState := .failed
      phase := .terminated } := by
    have hq := @Honest.failQueued p.entries p h
    exact { hq with
      known := by intro e he; rcases he with he | he <;> cases he
      appended := by intro x hx; cases hx
      last := by intro x hx; cases hx
      durable := by intro rest hphase; cases hphase }
  unfold Pool.aliveDrop
  split
  · exact hstop _
  · exact { hstop p.poolState with }
  · exact hfail
  · exact hfail

theorem Honest.append {e : QueueEntry} {rest : List QueueEntry}
    {appended : List (QueueEntry × Position)} {position : Position} (h : Honest p)
    (hphase : p.phase = .appending (e :: rest) appended) (hlt : p.lastSeq < position.seq) :
    Honest { p with
      phase := .appending rest (appended ++ [(e, position)])
      appends := p.appends ++ [(e, position)]
      lastSeq := position.seq } := by
  have hold : ∀ x ∈ appended, x ∈ p.appends ∧ x.2.seq ≤ p.lastSeq := by
    intro x hx
    exact h.appended x (by rw [hphase]; exact hx)
  exact { h with
    known := by
      intro e' he'
      refine h.known e' ?_
      rw [hphase]
      rcases he' with he' | he'
      · exact .inl he'
      · simpa [Phase.armed] using Or.inr he'
    appended := by
      intro x hx
      rcases mem_append.mp hx with hx | hx
      · exact ⟨mem_append_left _ (hold x hx).1, Nat.le_of_lt (Nat.lt_of_le_of_lt (hold x hx).2 hlt)⟩
      · obtain rfl := mem_singleton.mp hx
        exact ⟨mem_append_right _ (by simp), Nat.le_refl _⟩
    last := by
      intro x hx
      -- the entry just appended has the highest number
      have hx' : (appended ++ [(e, position)]).getLast? = some x := hx
      rw [List.getLast?_concat] at hx'
      cases hx'
      rfl
    durable := by intro rest hphase'; cases hphase'
    answers := fun r hr position hpos =>
      (h.answers r hr position hpos).mono (fun _ he => he) (fun _ hx => mem_append_left _ hx)
        fun _ hm => hm }

/-- `await_durable` has succeeded for the last of the batch, and so for all of it. -/
theorem Honest.durable_batch {appended : List (QueueEntry × Position)} (h : Honest p)
    (hphase : p.phase = .awaiting appended) :
    Honest { p with
      phase := .completing true appended
      durable := p.durable ++ (appended.getLast?.map (·.2.seq)).toList } :=
  { h with
    known := fun e he => h.known e (by rw [hphase]; exact he)
    appended := fun x hx => h.appended x (by rw [hphase]; exact hx)
    last := fun x hx => h.last x (by rw [hphase]; exact hx)
    durable := by
      intro rest hrest
      obtain ⟨-, rfl⟩ := Phase.completing.inj hrest
      intro x hx
      obtain ⟨init, last, hinit⟩ : ∃ init last, appended = init ++ [last] :=
        ⟨_, _, (dropLast_append_getLast (ne_nil_of_mem hx)).symm⟩
      have hlast : appended.getLast? = some last := by rw [hinit, List.getLast?_concat]
      refine ⟨last.2.seq, mem_append_right _ (by simp [hlast]), ?_⟩
      rw [h.last last (by rw [hphase]; exact hlast)]
      exact (h.appended x (by rw [hphase]; exact hx)).2
    answers := fun r hr position hpos =>
      (h.answers r hr position hpos).mono (fun _ he => he) (fun _ hx => hx)
        fun _ hm => mem_append_left _ hm }

/-- The next request of a batch that is durable is answered with its position. -/
theorem Honest.complete {e : QueueEntry} {position : Position} {rest : List (QueueEntry × Position)}
    (h : Honest p) (hphase : p.phase = .completing true ((e, position) :: rest)) :
    Honest { p.complete e.requestId (.ok position) with phase := .completing true rest } := by
  have hmem : (e, position) ∈ appendedOf p.phase := by
    rw [hphase]
    exact mem_cons_self
  -- appended, and in a batch that is durable: what `Ok` stands for
  have hserved : Fulfilled p e.requestId position := by
    refine ⟨e, h.known e (.inr ?_), rfl, (h.appended _ hmem).1,
      h.durable _ hphase (e, position) mem_cons_self⟩
    rw [hphase]
    exact mem_cons_self
  obtain ⟨held, heq, hheld⟩ := complete_frame p e.requestId (.ok position)
  rw [heq]
  exact { h with
    known := by
      intro e' he'
      refine h.known e' ?_
      rw [hphase]
      rcases he' with he' | he'
      · exact .inl he'
      · exact .inr (mem_cons_of_mem _ he')
    appended := fun x hx => h.appended x (by rw [hphase]; exact mem_cons_of_mem _ hx)
    last := by
      intro x hx
      refine h.last x ?_
      rw [hphase]
      show ((e, position) :: rest).getLast? = some x
      rw [List.getLast?_cons, show rest.getLast? = some x from hx]
      rfl
    durable := by
      intro rest' hrest x hx
      obtain ⟨-, rfl⟩ := Phase.completing.inj hrest
      exact h.durable _ hphase x (mem_cons_of_mem _ hx)
    answers := by
      intro r hr position' hpos
      rcases mem_append.mp hr with hr | hr
      · exact h.answers r (mem_append_left _ hr) position' hpos
      · rcases hheld r hr with hr | rfl
        · exact h.answers r (mem_append_right _ hr) position' hpos
        · cases hpos
          exact hserved }

/-- **Every step keeps the answers honest.** -/
theorem honest_step (h : Honest p) (hs : PoolStep p a p') : Honest p' := by
  cases hs with
  | @submit op e bytes _ hid =>
    exact { h with
      numbered := by
        rw [map_append, h.numbered]
        -- ids are given out one after the other, from 1 on
        show _ ++ [e.requestId] = List.range' 1 (p.lastRequestId + 1)
        rw [hid, List.range'_concat, Nat.one_mul, Nat.add_comm 1]
      known := by
        intro e' he'
        rcases he' with he' | he'
        · rcases mem_append.mp he' with he' | he'
          · exact mem_append_left _ (h.known e' (.inl he'))
          · exact mem_append_right _ he'
        · exact mem_append_left _ (h.known e' (.inr he'))
      answers := fun r hr position hpos =>
        (h.answers r hr position hpos).mono (fun _ he => mem_append_left _ he)
          (fun _ hx => hx) fun _ hm => hm }
  | shutdown => exact { h with }
  | @wait i result hi =>
    exact { h with
      answers := by
        intro r hr
        -- an answer handed over was held before
        refine h.answers r ?_
        rcases mem_append.mp hr with hr | hr
        · rcases mem_append.mp hr with hr | hr
          · exact mem_append_left _ hr
          · rw [mem_singleton.mp hr]
            exact mem_append_right _ (mem_of_getElem? hi)
        · exact mem_append_right _ (mem_of_mem_eraseIdx hr) }
  | @drain n bytes hphase =>
    exact { h with
      known := by
        intro e he
        -- the batch is the head of the queue
        refine h.known e (.inl ?_)
        rcases he with he | he
        · exact mem_of_mem_drop he
        · exact mem_of_mem_take he
      appended := by intro x hx; cases hx
      last := by intro x hx; cases hx
      durable := by intro rest hrest; cases hrest }
  | exit hphase => exact h.goOn (by simp [Phase.armed]) nil_suffix (by simp)
  | append hphase hlt => exact h.append hphase hlt
  | appendFails hphase | refuse hphase =>
    refine (h.refuse _ _).goOn ?_ ?_ (by simp)
    · rw [complete_phase, hphase]
      simp only [Phase.armed, mem_append, mem_cons]
      rintro e' (he' | he')
      · exact .inl he'
      · exact .inr (.inr he')
    · rw [complete_phase, hphase]
      exact suffix_rfl
  | awaits hphase =>
    refine h.goOn ?_ ?_ (by simp)
    · rcases hphase with hphase | hphase <;> rw [hphase] <;> simp [Phase.armed]
    · rcases hphase with hphase | hphase <;> rw [hphase] <;> exact suffix_rfl
  | nothingAppended | batchDone =>
    exact h.goOn (by simp [Phase.armed]) nil_suffix (by simp)
  | durable hphase => exact h.durable_batch hphase
  | notDurable hphase =>
    refine h.goOn ?_ ?_ (by simp)
    · rw [hphase]
      exact fun e he => he
    · rw [hphase]
      exact suffix_rfl
  | @completeNext succeeded e position rest hphase =>
    cases succeeded with
    | true => exact h.complete hphase
    | false =>
      refine (h.refuse _ _).goOn ?_ ?_ (by simp)
      · rw [complete_phase, hphase]
        exact fun e he => mem_cons_of_mem _ he
      · rw [complete_phase, hphase]
        exact suffix_cons _ _
  | panic => exact h.goOn (fun e he => he) nil_suffix (by simp)
  | dropGuard hphase =>
    refine (h.refuse _ _).goOn ?_ nil_suffix (by simp)
    rw [complete_phase, hphase]
    exact fun e he => mem_cons_of_mem _ he
  | dropAlive => exact h.aliveDrop

/-! ## Runs -/

/-- **Every accepted request is answered exactly once**, as long as no panic finds the pool
draining with requests in the queue: when the coordinator thread is gone each has its
result, no slot is filled twice, and `Ok` stands for a record of the request's own that was
appended at that position and made durable. -/
theorem every_request_answered_once {config : BatchCoordinatorConfig}
    (h : Reach Pool.act DropsEmpty { config := config } p) :
    (p.phase = .terminated →
      ∀ e ∈ p.submitted, ∃ outcome, (e.requestId, outcome) ∈ p.taken ++ p.held) ∧
    ((p.taken ++ p.held).map (·.1)).Nodup ∧
    ∀ id position, (id, .ok position) ∈ p.taken ++ p.held → Fulfilled p id position := by
  have hall : Once p ∧ Closing p ∧ Honest p :=
    h.invariant (P := fun x => Once x ∧ Closing x ∧ Honest x)
      ⟨fun id => by
          rw [if_neg (by show ¬ (0 < id ∧ id ≤ 0); omega)]
          rfl,
        ⟨fun _ => .inl rfl, fun hx => (by cases hx), fun hx => (by cases hx)⟩,
        ⟨rfl, fun e he => (by rcases he with he | he <;> cases he), fun x hx => (by cases hx),
          fun x hx => (by cases hx), fun rest hx => (by cases hx), fun r hr => (by cases hr)⟩⟩
      fun hx hsafe hs => by
        have hstep := poolStep_of_act hs
        exact ⟨once_step hx.1 hstep, closing_step hx.2.1 hsafe hstep, honest_step hx.2.2 hstep⟩
  obtain ⟨honce, hclosing, hhonest⟩ := hall
  refine ⟨fun hterm e he => ?_, ?_, fun id position hr => hhonest.answers _ hr position rfl⟩
  · have hid : e.requestId ∈ List.range' 1 p.lastRequestId :=
      hhonest.numbered ▸ mem_map.mpr ⟨e, he, rfl⟩
    have hcount := honce e.requestId
    rw [if_pos (by rw [mem_range'_1] at hid; omega), count_places,
      (hclosing.terminated hterm).1, hterm] at hcount
    -- neither queued nor under a guard, so answered
    have hpos : 0 < ((p.taken ++ p.held).map (·.1)).count e.requestId := by
      rw [map_append, count_append]
      simp only [map_nil, count_nil, Phase.armed] at hcount
      omega
    obtain ⟨r, hr, hrid⟩ := mem_map.mp (count_pos_iff.mp hpos)
    exact ⟨r.2, hrid ▸ hr⟩
  · rw [nodup_iff_count_le_one]
    intro id
    have hle := honce.count_le id
    rw [count_places] at hle
    rw [map_append, count_append]
    omega

/-- Once the thread is gone, the pool stopped and no slot filled, nothing happens any more. -/
theorem act_terminated (hphase : p.phase = .terminated) (hstate : p.poolState = .stopped)
    (hheld : p.held = []) : p.act a = none := by
  cases a with
  | append position => cases position <;> simp [Pool.act, Pool.threadAct, hphase]
  | _ => simp [Pool.act, Pool.threadAct, hphase, hstate, hheld]

/-- A request is queued, the pool is told to shut down, and the coordinator thread panics
before it drains the queue: the request is never answered. -/
theorem queued_request_never_answered :
    ∃ p, Reach Pool.act (fun _ _ => True) { config := ⟨10, 1000, 10⟩ } p ∧
      (p.phase = .terminated ∧ p.submitted = [⟨1, .delete [7], 22⟩]) ∧
      ∀ p', Reach Pool.act (fun _ _ => True) p p' → p'.taken ++ p'.held = [] := by
  obtain ⟨p, hreach, hphase, hstate, hheld, htaken, hsub⟩ :
      ∃ p, Reach Pool.act (fun _ _ => True) { config := ⟨10, 1000, 10⟩ } p ∧
        p.phase = .terminated ∧ p.poolState = .stopped ∧ p.held.isEmpty = true ∧
        p.taken.isEmpty = true ∧ p.submitted = [⟨1, .delete [7], 22⟩] :=
    exists_reach_of_run [.submit (.delete [7]), .shutdown, .panic, .dropAlive] (by decide +kernel)
  have hheld' := isEmpty_iff.mp hheld
  refine ⟨p, hreach, ⟨hphase, hsub⟩, fun p' hp' => ?_⟩
  have hsame : p' = p := hp'.invariant (P := fun x => x = p) rfl fun hx _ hs => by
    rw [hx, act_terminated hphase hstate hheld'] at hs
    cases hs
  rw [hsame, hheld', isEmpty_iff.mp htaken]
  rfl

/-- A run the condition allows: one request is answered with its position, and the panic
that follows finds another in the queue of a running pool. -/
theorem panicking_pool_answers :
    ∃ p, Reach Pool.act DropsEmpty { config := ⟨10, 1000, 1⟩ } p ∧
      (p.phase = .terminated ∧ p.submitted.length = 2 ∧ p.durable = [5]) ∧
      (∀ e ∈ p.submitted, ∃ outcome, (e.requestId, outcome) ∈ p.taken ++ p.held) ∧
      ((p.taken ++ p.held).map (·.1)).Nodup := by
  obtain ⟨p, hreach, hphase, hrest⟩ :
      ∃ p, Reach Pool.act DropsEmpty { config := ⟨10, 1000, 1⟩ } p ∧
        p.phase = .terminated ∧ p.submitted.length = 2 ∧ p.durable = [5] :=
    exists_reach_of_run
      [.submit (.delete [7]), .submit (.delete [8]), .drain, .append (some ⟨1, 24, 5⟩),
        .appendsDone, .awaitDone true, .completeNext, .completeNext, .panic,
        .dropAlive] (by decide +kernel)
  have hall := every_request_answered_once hreach
  exact ⟨p, hreach, ⟨hphase, hrest⟩, hall.1 hphase, hall.2.1⟩

end RubixDb.Proof
