import RubixDb.Lib.Mvcc
import RubixDb.Lib.Run

/-!
# Processes that write a multi-version store under locks

A system is a store with its log, a table of reader-writer locks, some shared state and
any number of processes, all running one `Program`. A write takes two steps: the batch is
submitted, which gives it the next sequence number in the log, and later applied to the
store, once the log is durable up to it. A crash keeps the durable part of the log, and
possibly more of it, and nothing else.

A `Discipline` says which locks a program holds at each of its points and which lock
guards a key. It is a matter of the program alone. From it follow the facts about whole
runs that the rest of the file is for:

* no two processes hold a lock that one of them holds exclusively;
* while a process holds the lock that guards a key, no other process changes the key;
* a batch in flight is newer than everything the store has for the keys it writes;
* a read at a number is settled once no batch at or below it is still in flight.
-/

namespace Lib

open List

structure Batch (K V : Type) where
  seq : Nat
  ops : Ops K V

/-- What a process does to the system in one step, besides moving on. -/
inductive Effect (T K V : Type) where
  | quiet
  | acquire (lock : T) (exclusive : Bool)
  /-- All of its locks. -/
  | release
  | submit (ops : Ops K V)
  | apply

/-- What a process can look at. -/
structure Seen (K V G : Type) where
  store : Store K V
  durable : Nat
  shared : G

structure Program (T K V G P A : Type) where
  idle : P
  /-- The shared state of a system that has just been started. -/
  restart : G
  step : Seen K V G → P → A → Option (Effect T K V × G × P)

structure Proc (K V P : Type) where
  /-- Submitted and not yet applied. -/
  batch : Option (Batch K V)
  pc : P

structure System (T K V G P : Type) where
  store : Store K V
  wal : List (Batch K V)
  next : Nat
  durable : Nat
  /-- Who holds a lock, and whether exclusively. -/
  locks : T → List (Nat × Bool)
  shared : G
  procs : Nat → Proc K V P

inductive Act (A : Type) where
  | step (p : Nat) (a : A)
  /-- The log becomes durable up to `n`. -/
  | sync (n : Nat)
  /-- A restart that finds the log up to `cut`. -/
  | crash (cut : Nat)

variable {T K V G P A : Type} [DecidableEq K]

def Effect.isSubmit : Effect T K V → Bool
  | .submit _ => true
  | _ => false

def Effect.isApply : Effect T K V → Bool
  | .apply => true
  | _ => false

/-- The locks a process holds after a step, from those it held before. -/
def Effect.heldAfter (held : List (T × Bool)) : Effect T K V → List (T × Bool)
  | .acquire t exclusive => (t, exclusive) :: held
  | .release => []
  | _ => held

def replay (wal : List (Batch K V)) : Store K V :=
  wal.foldl (fun es b => applyOps es b.seq b.ops) []

def lastSeq (wal : List (Batch K V)) : Nat := (wal.map (·.seq)).foldr max 0

def System.boot (prog : Program T K V G P A) (wal : List (Batch K V)) : System T K V G P where
  store := replay wal
  wal := wal
  next := lastSeq wal + 1
  durable := lastSeq wal
  locks := fun _ => []
  shared := prog.restart
  procs := fun _ => ⟨none, prog.idle⟩

def System.seen (w : System T K V G P) : Seen K V G := ⟨w.store, w.durable, w.shared⟩

/-- Readers share a lock; a writer has it alone. -/
def grantable (holders : List (Nat × Bool)) (exclusive : Bool) : Bool :=
  if exclusive then holders.isEmpty else holders.all fun h => !h.2

def System.effect [DecidableEq T] (w : System T K V G P) (p : Nat) :
    Effect T K V → Option (System T K V G P)
  | .quiet => some w
  | .acquire t exclusive =>
    if grantable (w.locks t) exclusive then
      some { w with locks := Function.update w.locks t ((p, exclusive) :: w.locks t) }
    else none
  | .release => some { w with locks := fun t => (w.locks t).filter fun h => h.1 ≠ p }
  | .submit ops => some { w with
      wal := w.wal ++ [⟨w.next, ops⟩]
      next := w.next + 1
      procs := Function.update w.procs p ⟨some ⟨w.next, ops⟩, (w.procs p).pc⟩ }
  | .apply =>
    match (w.procs p).batch with
    | none => none
    | some b =>
      if b.seq ≤ w.durable then
        some { w with
          store := applyOps w.store b.seq b.ops
          procs := Function.update w.procs p ⟨none, (w.procs p).pc⟩ }
      else none

/-- The process moves on. -/
def System.moveOn (w : System T K V G P) (p : Nat) (shared : G) (pc : P) : System T K V G P :=
  { w with shared := shared, procs := Function.update w.procs p ⟨(w.procs p).batch, pc⟩ }

def System.act [DecidableEq T] (prog : Program T K V G P A) (w : System T K V G P) :
    Act A → Option (System T K V G P)
  | .step p a =>
    match prog.step w.seen (w.procs p).pc a with
    | none => none
    | some (e, shared, pc) => (w.effect p e).map fun w => w.moveOn p shared pc
  | .sync n => if w.durable < n ∧ n < w.next then some { w with durable := n } else none
  | .crash cut =>
    if w.durable ≤ cut then some (.boot prog (w.wal.filter fun b => b.seq ≤ cut)) else none

/-- Which locks a program holds where, and which lock guards a key. -/
structure Discipline (prog : Program T K V G P A) where
  /-- The points a process can get to. -/
  valid : P → Prop
  holds : P → List (T × Bool)
  /-- A batch has been submitted and not applied. -/
  inFlight : P → Bool
  guard : K → Option T
  valid_idle : valid prog.idle
  holds_idle : holds prog.idle = []
  free_idle : inFlight prog.idle = false
  valid_step : ∀ {s pc a e g pc'}, valid pc → prog.step s pc a = some (e, g, pc') → valid pc'
  holds_step : ∀ {s pc a e g pc'}, valid pc → prog.step s pc a = some (e, g, pc') →
    holds pc' = e.heldAfter (holds pc)
  flight_before : ∀ {s pc a e g pc'}, prog.step s pc a = some (e, g, pc') →
    inFlight pc = e.isApply
  flight_after : ∀ {s pc a e g pc'}, prog.step s pc a = some (e, g, pc') →
    inFlight pc' = e.isSubmit
  guarded : ∀ {s pc a ops g pc'}, valid pc → prog.step s pc a = some (.submit ops, g, pc') →
    ∀ k t, Writes ops k → guard k = some t → (t, true) ∈ holds pc

/-! ## What a step can do -/

/-- The outcomes of a step of process `p`, one for each effect. -/
inductive System.Moved [DecidableEq T] (prog : Program T K V G P A) (w : System T K V G P)
    (p : Nat) (a : A) : System T K V G P → Prop where
  | quiet (h : prog.step w.seen (w.procs p).pc a = some (.quiet, g, pc)) :
      Moved prog w p a { w with
        shared := g, procs := Function.update w.procs p ⟨(w.procs p).batch, pc⟩ }
  | acquire (h : prog.step w.seen (w.procs p).pc a = some (.acquire t exclusive, g, pc))
      (hgrant : grantable (w.locks t) exclusive = true) :
      Moved prog w p a { w with
        locks := Function.update w.locks t ((p, exclusive) :: w.locks t)
        shared := g, procs := Function.update w.procs p ⟨(w.procs p).batch, pc⟩ }
  | release (h : prog.step w.seen (w.procs p).pc a = some (.release, g, pc)) :
      Moved prog w p a { w with
        locks := fun t => (w.locks t).filter fun h => h.1 ≠ p
        shared := g, procs := Function.update w.procs p ⟨(w.procs p).batch, pc⟩ }
  | submit (h : prog.step w.seen (w.procs p).pc a = some (.submit ops, g, pc)) :
      Moved prog w p a { w with
        wal := w.wal ++ [⟨w.next, ops⟩], next := w.next + 1
        shared := g, procs := Function.update w.procs p ⟨some ⟨w.next, ops⟩, pc⟩ }
  | apply (h : prog.step w.seen (w.procs p).pc a = some (.apply, g, pc))
      (hb : (w.procs p).batch = some b) (hd : b.seq ≤ w.durable) :
      Moved prog w p a { w with
        store := applyOps w.store b.seq b.ops
        shared := g, procs := Function.update w.procs p ⟨none, pc⟩ }

variable {prog : Program T K V G P A} {w w' : System T K V G P} {p q : Nat} {a : A}

theorem System.moved_of_act [DecidableEq T]
    (h : w.act prog (.step p a) = some w') : w.Moved prog p a w' := by
  simp only [System.act] at h
  split at h
  · cases h
  · rename_i e g pc hstep
    obtain ⟨w₁, heff, rfl⟩ := Option.map_eq_some_iff.mp h
    cases e with
    | quiet =>
      cases heff
      exact .quiet hstep
    | acquire t exclusive =>
      simp only [System.effect] at heff
      split_ifs at heff
      cases heff
      exact .acquire hstep ‹_›
    | release =>
      cases heff
      exact .release hstep
    | submit ops =>
      cases heff
      have := System.Moved.submit hstep
      simpa only [System.moveOn, Function.update_idem, Function.update_self] using this
    | apply =>
      simp only [System.effect] at heff
      split at heff
      · cases heff
      · rename_i b hb
        split_ifs at heff
        cases heff
        have := System.Moved.apply hstep hb ‹_›
        simpa only [System.moveOn, Function.update_idem, Function.update_self] using this

theorem System.Moved.procs_of_ne [DecidableEq T] (h : w.Moved prog p a w') (hq : q ≠ p) :
    w'.procs q = w.procs q := by
  cases h <;> exact Function.update_of_ne hq _ _

/-! ## Reading the log back -/

theorem mem_foldl_applyOps {v : Version K (Option V)} {wal : List (Batch K V)} {es : Store K V}
    (hord : wal.Pairwise (·.seq < ·.seq)) (hes : ∀ w ∈ es, ∀ b ∈ wal, w.seq < b.seq) :
    v ∈ wal.foldl (fun es b => applyOps es b.seq b.ops) es ↔
      v ∈ es ∨ ∃ b ∈ wal, v.seq = b.seq ∧ lastOp b.ops v.key = some v.value := by
  induction wal generalizing es with
  | nil => simp
  | cons b wal ih =>
    obtain ⟨hb, hord⟩ := pairwise_cons.mp hord
    have hnext : ∀ w ∈ applyOps es b.seq b.ops, ∀ c ∈ wal, w.seq < c.seq := by
      intro w hw c hc
      rcases mem_applyOps.mp hw with ⟨hseq, _⟩ | ⟨hm, _⟩
      · exact hseq ▸ hb c hc
      · exact hes w hm c (mem_cons_of_mem _ hc)
    rw [foldl_cons, ih hord hnext, mem_applyOps]
    constructor
    · rintro ((h | ⟨hm, _⟩) | ⟨c, hc, h⟩)
      · exact .inr ⟨b, mem_cons_self, h⟩
      · exact .inl hm
      · exact .inr ⟨c, mem_cons_of_mem _ hc, h⟩
    · rintro (hm | ⟨c, hc, h⟩)
      · -- what was there is older than the batch, so the batch leaves it
        have := hes v hm b mem_cons_self
        exact .inl (.inr ⟨hm, fun hw => by omega⟩)
      · rcases mem_cons.mp hc with rfl | hc
        · exact .inl (.inl h)
        · exact .inr ⟨c, hc, h⟩

theorem mem_replay {wal : List (Batch K V)} {v : Version K (Option V)}
    (h : wal.Pairwise (·.seq < ·.seq)) :
    v ∈ replay wal ↔ ∃ b ∈ wal, v.seq = b.seq ∧ lastOp b.ops v.key = some v.value := by
  rw [replay, mem_foldl_applyOps h (by simp)]
  simp

theorem coherent_replay (wal : List (Batch K V)) : Coherent (replay wal) := by
  have hfold : ∀ (wal : List (Batch K V)) (es : Store K V), Coherent es →
      Coherent (wal.foldl (fun es b => applyOps es b.seq b.ops) es) := by
    intro wal
    induction wal with
    | nil => intro es h; exact h
    | cons b wal ih => intro es h; exact ih _ (coherent_applyOps h)
  exact hfold wal [] (fun v hv => absurd hv (by simp))

/-- The log read back, one batch further. -/
theorem readNow_replay_append {wal : List (Batch K V)} {b : Batch K V}
    (h : (wal ++ [b]).Pairwise (·.seq < ·.seq)) (k : K) :
    readNow (replay (wal ++ [b])) k = (lastOp b.ops k).getD (readNow (replay wal) k) := by
  obtain ⟨hord, -, hlt⟩ := pairwise_append.mp h
  have hreplay : replay (wal ++ [b]) = applyOps (replay wal) b.seq b.ops := by
    rw [replay, foldl_append]
    rfl
  rw [hreplay]
  refine readNow_applyOps (coherent_replay wal) ?_ k
  intro v hv
  obtain ⟨c, hc, hseq, -⟩ := (mem_replay hord).mp hv
  rw [hseq]
  exact hlt c hc b (mem_singleton.mpr rfl)

omit [DecidableEq K] in
/-- A batch of the log is known by its number. -/
theorem eq_of_seq_eq {wal : List (Batch K V)} (hord : wal.Pairwise (·.seq < ·.seq))
    {b c : Batch K V} (hb : b ∈ wal) (hc : c ∈ wal) (h : b.seq = c.seq) : b = c := by
  induction wal with
  | nil => cases hb
  | cons x wal ih =>
    obtain ⟨hx, hord⟩ := pairwise_cons.mp hord
    rcases mem_cons.mp hb with rfl | hb'
    · rcases mem_cons.mp hc with rfl | hc'
      · rfl
      · have := hx c hc'
        omega
    · rcases mem_cons.mp hc with rfl | hc'
      · have := hx b hb'
        omega
      · exact ih hord hb' hc'

omit [DecidableEq K] in
theorem le_lastSeq_of_mem {wal : List (Batch K V)} {b : Batch K V} (h : b ∈ wal) :
    b.seq ≤ lastSeq wal := by
  induction wal with
  | nil => cases h
  | cons c wal ih =>
    have hcons : lastSeq (c :: wal) = max c.seq (lastSeq wal) := rfl
    rcases mem_cons.mp h with rfl | h
    · omega
    · have := ih h
      omega

/-! ## What holds in every state -/

/-- The facts about locks, the log and the store that every step keeps. -/
structure System.Ok (d : Discipline prog) (w : System T K V G P) : Prop where
  valid : ∀ p, d.valid (w.procs p).pc
  locks : ∀ t p ex, (p, ex) ∈ w.locks t ↔ (t, ex) ∈ d.holds (w.procs p).pc
  alone : ∀ t p, (p, true) ∈ w.locks t → ∀ q ex, (q, ex) ∈ w.locks t → q = p
  flight : ∀ p, (w.procs p).batch.isSome = d.inFlight (w.procs p).pc
  guarded : ∀ p b, (w.procs p).batch = some b → ∀ k t, Writes b.ops k → d.guard k = some t →
    (t, true) ∈ d.holds (w.procs p).pc
  logged : ∀ p b, (w.procs p).batch = some b → b ∈ w.wal
  apart : ∀ p q b c, (w.procs p).batch = some b → (w.procs q).batch = some c →
    b.seq = c.seq → p = q
  ordered : w.wal.Pairwise (·.seq < ·.seq)
  below : ∀ b ∈ w.wal, b.seq < w.next
  durable : w.durable < w.next
  /-- The store has what was logged, except the batches in flight. -/
  store : ∀ v, v ∈ w.store ↔ ∃ b ∈ w.wal, (∀ p, (w.procs p).batch ≠ some b) ∧
    v.seq = b.seq ∧ lastOp b.ops v.key = some v.value
  coherent : Coherent w.store
  /-- What the store has under a lock is older than a batch whose process holds the lock. -/
  newest : ∀ p b, (w.procs p).batch = some b → ∀ k t ex, (t, ex) ∈ d.holds (w.procs p).pc →
    d.guard k = some t → ∀ v ∈ w.store, v.key = k → v.seq < b.seq

namespace System

variable {d : Discipline prog} {g : G} {pc : P} {ops : Ops K V} {b : Batch K V}

theorem Ok.seq_lt (h : w.Ok d) {v : Version K (Option V)} (hv : v ∈ w.store) : v.seq < w.next := by
  obtain ⟨b, hb, _, hseq, _⟩ := (h.store v).mp hv
  exact hseq ▸ h.below b hb

/-- Two processes that hold a lock, one of them exclusively, are one. -/
theorem Ok.holder_unique (h : w.Ok d) {t : T} {ex : Bool}
    (hp : (t, true) ∈ d.holds (w.procs p).pc) (hq : (t, ex) ∈ d.holds (w.procs q).pc) : q = p :=
  h.alone t p ((h.locks t p true).mpr hp) q ex ((h.locks t q ex).mpr hq)

theorem ok_boot {wal : List (Batch K V)} (hord : wal.Pairwise (·.seq < ·.seq)) :
    (boot prog wal).Ok d where
  valid _ := d.valid_idle
  locks t p ex := by simp [boot, d.holds_idle]
  alone t p hp := by simp [boot] at hp
  flight p := by simp [boot, d.free_idle]
  guarded p b hb := by cases hb
  logged p b hb := by cases hb
  apart p q b c hb := by cases hb
  ordered := hord
  below b hb := Nat.lt_succ_of_le (le_lastSeq_of_mem hb)
  durable := Nat.lt_succ_self _
  store v := by
    have hfree : ∀ b : Batch K V, ∀ p, ((boot prog wal).procs p).batch ≠ some b := by
      intro b p hb
      cases hb
    rw [show (boot prog wal).store = replay wal from rfl, mem_replay hord]
    constructor
    · rintro ⟨b, hb, h⟩
      exact ⟨b, hb, hfree b, h⟩
    · rintro ⟨b, hb, _, h⟩
      exact ⟨b, hb, h⟩
  coherent := coherent_replay wal
  newest p b hb := by cases hb

/-! ## Steps outside a write

Before and after such a step the process has no batch in flight, so that only its locks
are in question. -/

theorem Ok.batch_eq_none (h : w.Ok d) (hp : d.inFlight (w.procs p).pc = false) :
    (w.procs p).batch = none := by
  have := h.flight p
  rw [hp] at this
  exact Option.isSome_eq_false_iff.mp this |> Option.isNone_iff_eq_none.mp

omit [DecidableEq K] in
/-- A batch in flight after process `p` moved is its own or one of another process. -/
theorem batch_update {procs : Nat → Proc K V P} {batch : Option (Batch K V)} :
    (Function.update procs p ⟨batch, pc⟩ q).batch = some b ↔
      (q = p ∧ batch = some b) ∨ (q ≠ p ∧ (procs q).batch = some b) := by
  by_cases hq : q = p
  · subst hq
    simp
  · simp [hq]

/-- What a step of process `p` leaves to be shown of the processes and the locks. -/
theorem Ok.update (h : w.Ok d) (batch : Option (Batch K V))
    {L : T → List (Nat × Bool)} (hvalid : d.valid pc) (hflight : batch.isSome = d.inFlight pc)
    (hself : ∀ t ex, (p, ex) ∈ L t ↔ (t, ex) ∈ d.holds pc)
    (hother : ∀ t q ex, q ≠ p → ((q, ex) ∈ L t ↔ (q, ex) ∈ w.locks t)) :
    (∀ q, d.valid (Function.update w.procs p ⟨batch, pc⟩ q).pc) ∧
      (∀ t q ex, (q, ex) ∈ L t ↔
        (t, ex) ∈ d.holds (Function.update w.procs p ⟨batch, pc⟩ q).pc) ∧
      ∀ q, (Function.update w.procs p ⟨batch, pc⟩ q).batch.isSome =
        d.inFlight (Function.update w.procs p ⟨batch, pc⟩ q).pc := by
  refine ⟨?_, fun t => ?_, ?_⟩
  · exact (Function.forall_update_iff w.procs fun _ proc => d.valid proc.pc).mpr
      ⟨hvalid, fun q _ => h.valid q⟩
  · exact (Function.forall_update_iff w.procs fun q proc =>
      ∀ ex, (q, ex) ∈ L t ↔ (t, ex) ∈ d.holds proc.pc).mpr
        ⟨hself t, fun q hq ex => (hother t q ex hq).trans (h.locks t q ex)⟩
  · exact (Function.forall_update_iff w.procs fun _ proc =>
      proc.batch.isSome = d.inFlight proc.pc).mpr ⟨hflight, fun q _ => h.flight q⟩

theorem ok_relock (h : w.Ok d) {L : T → List (Nat × Bool)} (hvalid : d.valid pc)
    (hbefore : d.inFlight (w.procs p).pc = false) (hafter : d.inFlight pc = false)
    (hself : ∀ t ex, (p, ex) ∈ L t ↔ (t, ex) ∈ d.holds pc)
    (hother : ∀ t q ex, q ≠ p → ((q, ex) ∈ L t ↔ (q, ex) ∈ w.locks t))
    (halone : ∀ t q, (q, true) ∈ L t → ∀ r ex, (r, ex) ∈ L t → r = q) :
    Ok d { w with
      locks := L, shared := g, procs := Function.update w.procs p ⟨(w.procs p).batch, pc⟩ } := by
  have hnone := h.batch_eq_none hbefore
  obtain ⟨hv, hl, hf⟩ := h.update (w.procs p).batch hvalid
    (by rw [hnone, hafter]; rfl) hself hother
  have hbatch : ∀ q b, (Function.update w.procs p ⟨(w.procs p).batch, pc⟩ q).batch = some b ↔
      (w.procs q).batch = some b := by
    intro q b
    by_cases hq : q = p
    · rw [hq, Function.update_self]
    · rw [Function.update_of_ne hq]
  -- a process with a batch is another one, and has the locks it had
  have hheld : ∀ q b, (w.procs q).batch = some b →
      Function.update w.procs p ⟨(w.procs p).batch, pc⟩ q = w.procs q := by
    intro q b hb
    refine Function.update_of_ne (fun hq => ?_) _ _
    rw [hq, hnone] at hb
    cases hb
  refine ⟨hv, hl, halone, hf, ?_, ?_, ?_, h.ordered, h.below, h.durable, ?_, h.coherent, ?_⟩
  · intro q b hb k t hk ht
    have hb := (hbatch q b).mp hb
    dsimp only
    rw [hheld q b hb]
    exact h.guarded q b hb k t hk ht
  · intro q b hb
    exact h.logged q b ((hbatch q b).mp hb)
  · intro q r b c hb hc
    exact h.apart q r b c ((hbatch q b).mp hb) ((hbatch r c).mp hc)
  · intro v
    simp only [ne_eq, hbatch]
    exact h.store v
  · intro q b hb k t ex hheldq
    have hb := (hbatch q b).mp hb
    dsimp only at hheldq
    rw [hheld q b hb] at hheldq
    exact h.newest q b hb k t ex hheldq

/-- A step that only moves the process on. -/
theorem ok_quiet (h : w.Ok d) (hstep : prog.step w.seen (w.procs p).pc a = some (.quiet, g, pc)) :
    Ok d { w with shared := g, procs := Function.update w.procs p ⟨(w.procs p).batch, pc⟩ } := by
  refine ok_relock h (d.valid_step (h.valid p) hstep) (d.flight_before hstep) (d.flight_after hstep)
    ?_ (fun _ _ _ _ => Iff.rfl) h.alone
  intro t ex
  rw [d.holds_step (h.valid p) hstep]
  exact h.locks t p ex

theorem ok_acquire [DecidableEq T] (h : w.Ok d) {t : T} {exclusive : Bool}
    (hstep : prog.step w.seen (w.procs p).pc a = some (.acquire t exclusive, g, pc))
    (hgrant : grantable (w.locks t) exclusive = true) :
    Ok d { w with
      locks := Function.update w.locks t ((p, exclusive) :: w.locks t)
      shared := g, procs := Function.update w.procs p ⟨(w.procs p).batch, pc⟩ } := by
  refine ok_relock h (d.valid_step (h.valid p) hstep) (d.flight_before hstep)
    (d.flight_after hstep) ?_ ?_ ?_
  · intro u ex
    rw [d.holds_step (h.valid p) hstep, Effect.heldAfter, mem_cons, ← h.locks u p ex]
    by_cases hu : u = t
    · rw [hu, Function.update_self]
      simp
    · rw [Function.update_of_ne hu]
      simp [hu]
  · intro u q ex hq
    by_cases hu : u = t
    · rw [hu, Function.update_self]
      simp [hq]
    · rw [Function.update_of_ne hu]
  · intro u q hq r ex hr
    by_cases hu : u = t
    · rw [hu, Function.update_self] at hq hr
      cases exclusive with
      | true =>
        -- nobody else had it
        have hnil : w.locks t = [] := by simpa [grantable] using hgrant
        rw [hnil] at hq hr
        simp only [mem_singleton, Prod.mk.injEq] at hq hr
        rw [hq.1, hr.1]
      | false =>
        -- every holder is a reader, so that no one holds it exclusively
        have hall : ∀ x ∈ w.locks t, x.2 = false := by simpa [grantable] using hgrant
        rcases mem_cons.mp hq with hq | hq
        · cases hq
        · have := hall _ hq
          cases this
    · rw [Function.update_of_ne hu] at hq hr
      exact h.alone u q hq r ex hr

theorem ok_release (h : w.Ok d)
    (hstep : prog.step w.seen (w.procs p).pc a = some (.release, g, pc)) :
    Ok d { w with
      locks := fun t => (w.locks t).filter fun h => h.1 ≠ p
      shared := g, procs := Function.update w.procs p ⟨(w.procs p).batch, pc⟩ } := by
  refine ok_relock h (d.valid_step (h.valid p) hstep) (d.flight_before hstep)
    (d.flight_after hstep) ?_ ?_ ?_
  · intro t ex
    rw [d.holds_step (h.valid p) hstep]
    simp [Effect.heldAfter]
  · intro t q ex hq
    simp [hq]
  · intro t q hq r ex hr
    exact h.alone t q (mem_filter.mp hq).1 r ex (mem_filter.mp hr).1

/-! ## The two steps of a write -/

omit [DecidableEq K] in
/-- A step that takes and gives up no lock. -/
theorem holds_update {batch : Option (Batch K V)} (hholds : d.holds pc = d.holds (w.procs p).pc)
    (q : Nat) : d.holds (Function.update w.procs p ⟨batch, pc⟩ q).pc = d.holds (w.procs q).pc := by
  by_cases hq : q = p
  · rw [hq, Function.update_self]
    exact hholds
  · rw [Function.update_of_ne hq]

theorem ok_submit (h : w.Ok d)
    (hstep : prog.step w.seen (w.procs p).pc a = some (.submit ops, g, pc)) :
    Ok d { w with
      wal := w.wal ++ [⟨w.next, ops⟩], next := w.next + 1
      shared := g, procs := Function.update w.procs p ⟨some ⟨w.next, ops⟩, pc⟩ } := by
  have hnone := h.batch_eq_none (d.flight_before hstep)
  have hholds : d.holds pc = d.holds (w.procs p).pc := d.holds_step (h.valid p) hstep
  obtain ⟨hv, hl, hf⟩ := h.update (some ⟨w.next, ops⟩) (d.valid_step (h.valid p) hstep)
    (d.flight_after hstep).symm (fun t ex => hholds ▸ h.locks t p ex) fun _ _ _ _ => Iff.rfl
  have hbatch : ∀ q b, (Function.update w.procs p ⟨some ⟨w.next, ops⟩, pc⟩ q).batch = some b ↔
      (q = p ∧ some ⟨w.next, ops⟩ = some b) ∨ (q ≠ p ∧ (w.procs q).batch = some b) :=
    fun q b => batch_update
  refine ⟨hv, hl, h.alone, hf, ?_, ?_, ?_, ?_, ?_, Nat.lt_succ_of_lt h.durable, ?_, h.coherent,
    ?_⟩
  · intro q b hb k t hk ht
    rw [holds_update hholds]
    rcases (hbatch q b).mp hb with ⟨rfl, hnew⟩ | ⟨_, hb⟩
    · cases hnew
      exact d.guarded (h.valid q) hstep k t hk ht
    · exact h.guarded q b hb k t hk ht
  · intro q b hb
    rcases (hbatch q b).mp hb with ⟨_, hb⟩ | ⟨_, hb⟩
    · cases hb
      simp
    · exact mem_append_left _ (h.logged q b hb)
  · intro q r b c hb hc hseq
    -- the new batch is above those that were in flight
    rcases (hbatch q b).mp hb with ⟨hq, hb⟩ | ⟨_, hb⟩
    · rcases (hbatch r c).mp hc with ⟨hr, _⟩ | ⟨_, hc⟩
      · rw [hq, hr]
      · cases hb
        exact absurd hseq (Nat.ne_of_gt (h.below c (h.logged r c hc)))
    · rcases (hbatch r c).mp hc with ⟨_, hc⟩ | ⟨_, hc⟩
      · cases hc
        exact absurd hseq (Nat.ne_of_lt (h.below b (h.logged q b hb)))
      · exact h.apart q r b c hb hc hseq
  · refine pairwise_append.mpr ⟨h.ordered, pairwise_singleton _ _, ?_⟩
    intro b hb c hc
    rw [mem_singleton.mp hc]
    exact h.below b hb
  · intro b hb
    rcases mem_append.mp hb with hb | hb
    · exact Nat.lt_succ_of_lt (h.below b hb)
    · rw [mem_singleton.mp hb]
      exact Nat.lt_succ_self _
  · intro v
    rw [h.store v]
    constructor
    · rintro ⟨b, hb, hfree, hv⟩
      refine ⟨b, mem_append_left _ hb, fun q hq => ?_, hv⟩
      rcases (hbatch q b).mp hq with ⟨_, hq⟩ | ⟨_, hq⟩
      · cases hq
        exact Nat.lt_irrefl _ (h.below _ hb)
      · exact hfree q hq
    · rintro ⟨b, hb, hfree, hv⟩
      rcases mem_append.mp hb with hb | hb
      · refine ⟨b, hb, fun q hq => hfree q ((hbatch q b).mpr (.inr ⟨fun hqp => ?_, hq⟩)), hv⟩
        rw [hqp, hnone] at hq
        cases hq
      · -- the new batch is in flight
        rw [mem_singleton.mp hb] at hfree
        exact absurd ((hbatch p _).mpr (.inl ⟨rfl, rfl⟩)) (hfree p)
  · intro q b hb k t ex hheldq ht v hv hvk
    rw [holds_update hholds] at hheldq
    rcases (hbatch q b).mp hb with ⟨_, hb⟩ | ⟨_, hb⟩
    · cases hb
      exact h.seq_lt hv
    · exact h.newest q b hb k t ex hheldq ht v hv hvk

theorem ok_apply (h : w.Ok d) (hstep : prog.step w.seen (w.procs p).pc a = some (.apply, g, pc))
    (hb : (w.procs p).batch = some b) :
    Ok d { w with
      store := applyOps w.store b.seq b.ops
      shared := g, procs := Function.update w.procs p ⟨none, pc⟩ } := by
  have hholds : d.holds pc = d.holds (w.procs p).pc := d.holds_step (h.valid p) hstep
  obtain ⟨hv, hl, hf⟩ := h.update none (d.valid_step (h.valid p) hstep)
    (d.flight_after hstep).symm (fun t ex => hholds ▸ h.locks t p ex) fun _ _ _ _ => Iff.rfl
  have hbatch : ∀ q c, (Function.update w.procs p ⟨none, pc⟩ q).batch = some c →
      q ≠ p ∧ (w.procs q).batch = some c := by
    intro q c hc
    simpa using batch_update.mp hc
  refine ⟨hv, hl, h.alone, hf, ?_, ?_, ?_, h.ordered, h.below, h.durable, ?_,
    coherent_applyOps h.coherent, ?_⟩
  · intro q c hc k t hk ht
    rw [holds_update hholds]
    exact h.guarded q c (hbatch q c hc).2 k t hk ht
  · intro q c hc
    exact h.logged q c (hbatch q c hc).2
  · intro q r c c' hc hc'
    exact h.apart q r c c' (hbatch q c hc).2 (hbatch r c' hc').2
  · intro v
    rw [mem_applyOps, h.store v]
    constructor
    · rintro (hv | ⟨⟨c, hc, hfree, hv⟩, _⟩)
      · refine ⟨b, h.logged p b hb, fun q hq => ?_, hv⟩
        obtain ⟨hqp, hq⟩ := hbatch q b hq
        exact hqp (h.apart q p b b hq hb rfl)
      · exact ⟨c, hc, fun q hq => hfree q (hbatch q c hq).2, hv⟩
    · rintro ⟨c, hc, hfree, hv⟩
      by_cases hcb : c = b
      · rw [hcb] at hv
        exact .inl hv
      · refine .inr ⟨⟨c, hc, fun q hq => hfree q (batch_update.mpr (.inr ⟨fun hqp => ?_, hq⟩)), hv⟩,
          fun hs => hcb (eq_of_seq_eq h.ordered hc (h.logged p b hb) (hv.1.symm.trans hs.1))⟩
        rw [hqp, hb] at hq
        exact hcb (Option.some.inj hq).symm
  · intro q c hc k t ex hheldq ht v hv hvk
    rw [holds_update hholds] at hheldq
    obtain ⟨hqp, hc⟩ := hbatch q c hc
    rcases mem_applyOps.mp hv with ⟨hseq, hop⟩ | ⟨hm, _⟩
    · -- whoever writes the key has its lock alone
      rw [hvk] at hop
      exact absurd (h.holder_unique (h.guarded p b hb k t ⟨_, mem_of_lastOp hop⟩ ht) hheldq) hqp
    · exact h.newest q c hc k t ex hheldq ht v hm hvk

/-- **Every step keeps the invariant.** -/
theorem ok_act [DecidableEq T] (h : w.Ok d) {a : Act A} (hact : w.act prog a = some w') :
    w'.Ok d := by
  cases a with
  | step p a =>
    cases moved_of_act hact with
    | quiet hs => exact ok_quiet h hs
    | acquire hs hgrant => exact ok_acquire h hs hgrant
    | release hs => exact ok_release h hs
    | submit hs => exact ok_submit h hs
    | apply hs hb _ => exact ok_apply h hs hb
  | sync n =>
    simp only [act] at hact
    split_ifs at hact with hn
    cases hact
    exact { h with durable := hn.2 }
  | crash cut =>
    simp only [act] at hact
    split_ifs at hact
    cases hact
    exact ok_boot (List.Pairwise.filter _ h.ordered)

/-- The store is the log read back, for a key that no batch in flight writes. -/
theorem Ok.readNow_store (h : w.Ok d) {k : K}
    (hfree : ∀ p b, (w.procs p).batch = some b → ¬ Writes b.ops k) :
    readNow w.store k = readNow (replay w.wal) k := by
  have hmem : ∀ v : Version K (Option V), v.key = k → (v ∈ w.store ↔ v ∈ replay w.wal) := by
    intro v hv
    rw [h.store v, mem_replay h.ordered]
    constructor
    · rintro ⟨b, hb, -, hop⟩
      exact ⟨b, hb, hop⟩
    · rintro ⟨b, hb, hseq, hop⟩
      refine ⟨b, hb, fun p hp => ?_, hseq, hop⟩
      -- the batch writes the key, so it is not in flight
      have hnot := hfree p b hp
      rw [← hv, ← lastOp_eq_none_iff, hop] at hnot
      cases hnot
  have hle : ∀ v ∈ replay w.wal, v.seq ≤ w.next := by
    intro v hv
    obtain ⟨b, hb, hseq, -⟩ := (mem_replay h.ordered).mp hv
    rw [hseq]
    exact Nat.le_of_lt (h.below b hb)
  rw [← readAt_eq_readNow h.coherent fun v hv _ => Nat.le_of_lt (h.seq_lt hv),
    ← readAt_eq_readNow (coherent_replay w.wal) fun v hv _ => hle v hv]
  exact readAt_congr (coherent_replay w.wal) fun v hv => hmem v hv.1

/-! ## What other processes cannot change -/

/-- A read at `s` is settled: what it sees of `k` is all there will be. -/
def Settled (w : System T K V G P) (k : K) (s : Nat) : Prop :=
  s < w.next ∧ ∀ p b, (w.procs p).batch = some b → b.seq ≤ s → ¬ Writes b.ops k

/-- **A settled read is stable.** -/
theorem Settled.moved [DecidableEq T] {k : K} {s : Nat} (hset : w.Settled k s) (h : w.Ok d)
    (hm : w.Moved prog p a w') : w'.Settled k s ∧ readAt w'.store k s = readAt w.store k s := by
  obtain ⟨hs, hfree⟩ := hset
  -- no step puts a batch in flight at or below `s`
  have hkeep : ∀ (batch : Option (Batch K V)) (pc : P),
      (∀ b, batch = some b → b.seq ≤ s → ¬ Writes b.ops k) → ∀ q b,
      (Function.update w.procs p ⟨batch, pc⟩ q).batch = some b → b.seq ≤ s → ¬ Writes b.ops k := by
    intro batch pc hown q b hb
    rcases batch_update.mp hb with ⟨_, hb⟩ | ⟨_, hb⟩
    · exact hown b hb
    · exact hfree q b hb
  cases hm with
  | quiet _ | acquire _ _ | release _ => exact ⟨⟨hs, hkeep _ _ (hfree p)⟩, rfl⟩
  | submit _ =>
    refine ⟨⟨Nat.lt_succ_of_lt hs, hkeep _ _ fun b hb hle => ?_⟩, rfl⟩
    cases hb
    exact absurd hle (Nat.not_le.mpr hs)
  | @apply _ _ b _ hb _ =>
    refine ⟨⟨hs, hkeep _ _ fun c hc => by cases hc⟩, ?_⟩
    show readAt (applyOps w.store b.seq b.ops) k s = readAt w.store k s
    by_cases hle : b.seq ≤ s
    · exact readAt_applyOps_of_not_writes h.coherent (hfree p b hb hle)
    · exact readAt_applyOps_of_lt h.coherent (by omega)

end System

end Lib
