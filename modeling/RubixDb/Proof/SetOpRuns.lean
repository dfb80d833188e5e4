import RubixDb.Proof.NotDistinct

/-!
# A set operation as a filter

Calling `next` until it has no more rows runs the rows the operator reads through
`Env.process`, one after another, keeping some of them: `setOpRows_concatenated` for the
unions and `setOpRows_counted` for the operators that count the right operand first.
-/

namespace RubixDb.Proof

open Lib SetOp List

variable {env : Env} {kind : Kind} {held held' : Held} {row : Row}

/-- What a pass of the loop does with the row it reads. -/
def passStep (env : Env) (kind : Kind) (held : Held) (row : Row) :
    Except ExecError (Bool × Held) := do
  let held ← env.tick held
  let (verdict, held) ← env.process kind held row
  .ok (verdict.isSome, held)

/-- What is still to be produced when `rows` are still to be read: the last call of `next`
checks the deadline once more. -/
def remaining (env : Env) (kind : Kind) (held : Held) (rows : List Row) :
    Except ExecError (List Row) := do
  let (out, held) ← feed (passStep env kind) held (rows.map .ok)
  let _ ← env.tick held
  .ok out

/-- The rows the loop of `next` has still to read. -/
def pending (op : SetOpOp) : Operand :=
  if op.kind.countsRight then op.left
  else match op.phase with
    | .left => op.left ++ op.right
    | .right => op.right
    | .done => []

theorem pending_le_rowsLeft (op : SetOpOp) : (pending op).length ≤ op.rowsLeft := by
  unfold pending SetOpOp.rowsLeft
  split
  · omega
  split
  · rw [length_append]
  · omega
  · simp

/-! ## One pass -/

theorem read_nil {op : SetOpOp} (h : pending op = []) : ∃ op', op.read = .ok (none, op') := by
  unfold pending at h
  unfold SetOpOp.read SetOpOp.nextConcatenated
  split at h
  · rename_i hk
    rw [if_pos hk, h]
    exact ⟨_, rfl⟩
  rename_i hk
  rw [if_neg hk]
  split at h <;> rename_i hphase
  · obtain ⟨hl, hr⟩ := append_eq_nil_iff.mp h
    simp only [hphase, hl, hr]
    exact ⟨_, rfl⟩
  · simp only [hphase, h]
    exact ⟨_, rfl⟩
  · simp only [hphase]
    exact ⟨_, rfl⟩

theorem read_cons {op : SetOpOp} {row : Row} {rest : Operand} (h : pending op = .ok row :: rest) :
    ∃ op', op.read = .ok (some row, op') ∧ pending op' = rest ∧ op'.kind = op.kind ∧
      op'.held = op.held := by
  unfold pending at h
  unfold SetOpOp.read SetOpOp.nextConcatenated
  split at h
  · rename_i hk
    rw [if_pos hk, h]
    exact ⟨_, rfl, if_pos hk, rfl, rfl⟩
  rename_i hk
  rw [if_neg hk]
  split at h <;> rename_i hphase
  · rcases hl : op.left with _ | ⟨item, left⟩
    · -- the left operand has ended and the row is the first of the right one
      rw [hl, nil_append] at h
      simp only [hphase, h]
      exact ⟨_, rfl, by rw [pending, if_neg hk], rfl, rfl⟩
    · rw [hl, cons_append] at h
      obtain ⟨rfl, rfl⟩ := h
      simp only [hphase]
      exact ⟨_, rfl, by rw [pending, if_neg hk], rfl, rfl⟩
  · simp only [hphase, h]
    exact ⟨_, rfl, by rw [pending, if_neg hk], rfl, rfl⟩
  · cases h

/-- A row that is emitted is the row that was read. -/
theorem process_emits {out : Row}
    (h : env.process kind held row = .ok (some out, held')) : out = row := by
  unfold Env.process at h
  split at h
  · cases h
    rfl
  · split at h
    · cases h
    · obtain ⟨_, _, h⟩ := bind_eq_ok.mp h
      cases h
      rfl
  · obtain ⟨⟨verdict, slots, _⟩, hjudge, h⟩ := bind_eq_ok.mp h
    cases h
    unfold Env.judge at hjudge
    split at hjudge <;> (try split_ifs at hjudge) <;> (try cases hjudge) <;> (try rfl)
    obtain ⟨_, _, hjudge⟩ := bind_eq_ok.mp hjudge
    cases hjudge
    rfl

theorem process_built {verdict : Option Row} (hk : kind.countsRight = true)
    (h : env.process kind held row = .ok (verdict, held')) : held'.slots.isNone = false := by
  unfold Env.process at h
  split at h
  · cases hk
  · cases hk
  · obtain ⟨⟨_, slots, _⟩, _, h⟩ := bind_eq_ok.mp h
    cases h
    rfl

/-! ## Whole runs -/

theorem remaining_nil (env : Env) (kind : Kind) (held : Held) :
    remaining env kind held [] = (do let _ ← env.tick held; .ok []) := rfl

theorem remaining_cons (env : Env) (kind : Kind) (held : Held) (row : Row) (rows : List Row) :
    remaining env kind held (row :: rows) = (do
      let (kept, held) ← passStep env kind held row
      let out ← remaining env kind held rows
      .ok (if kept then row :: out else out)) := by
  rw [remaining, map_cons, feed, ok_bind]
  cases hp : passStep env kind held row with
  | error e => rfl
  | ok r =>
    rw [ok_bind, ok_bind]
    dsimp only
    rw [remaining]
    cases hf : feed (passStep env kind) r.2 (rows.map .ok) with
    | error e => rfl
    | ok r' =>
      rw [ok_bind, ok_bind, ok_bind]
      dsimp only
      cases ht : env.tick r'.2 with
      | error e => rfl
      | ok t => rfl

/-- The slots an operator needs are there. -/
def Built (op : SetOpOp) : Prop := op.kind.countsRight = true → op.held.slots.isNone = false

theorem next_of_built {op : SetOpOp} (hbuilt : Built op) :
    op.next env = op.nextLoop env (op.rowsLeft + 1) := by
  unfold SetOpOp.next
  rw [if_neg]
  · rfl
  · intro h
    rw [Bool.and_eq_true] at h
    rw [hbuilt h.1] at h
    cases h.2

/-- What a call of `next` says about `whole`, all that was still to be produced. -/
def Yields (env : Env) (kind : Kind) (rows : List Row) (whole : Except ExecError (List Row)) :
    Except ExecError (Option Row × SetOpOp) → Prop
  | .error e => whole = .error e
  | .ok (none, _) => whole = .ok []
  | .ok (some row, op) => ∃ rest : List Row, pending op = rest.map .ok ∧ rest.length < rows.length ∧
      op.kind = kind ∧ Built op ∧
      whole = (do let out ← remaining env kind op.held rest; .ok (row :: out))

theorem Yields.cons {kind : Kind} {row : Row} {rows : List Row}
    {whole : Except ExecError (List Row)} :
    ∀ {next : Except ExecError (Option Row × SetOpOp)},
      Yields env kind rows whole next → Yields env kind (row :: rows) whole next
  | .error _, h => h
  | .ok (none, _), h => h
  | .ok (some _, _), ⟨rest, hp, hlen, h⟩ => ⟨rest, hp, Nat.lt_succ_of_lt hlen, h⟩

theorem nextLoop_yields {rows : List Row} {passes : Nat} {op : SetOpOp}
    (hp : pending op = rows.map .ok) (hlen : rows.length < passes) :
    Yields env op.kind rows (remaining env op.kind op.held rows) (op.nextLoop env passes) := by
  induction rows generalizing passes op with
  | nil =>
    obtain ⟨passes, rfl⟩ : ∃ n, passes = n + 1 := ⟨passes - 1, by simp at hlen; omega⟩
    rw [SetOpOp.nextLoop, remaining_nil]
    cases ht : env.tick op.held with
    | error e => rfl
    | ok held =>
      obtain ⟨op', hread⟩ := @read_nil { op with held := held } hp
      rw [ok_bind, ok_bind, hread]
      rfl
  | cons row rows ih =>
    rw [length_cons] at hlen
    obtain ⟨passes, rfl⟩ : ∃ n, passes = n + 1 := ⟨passes - 1, by omega⟩
    rw [SetOpOp.nextLoop, remaining_cons, passStep]
    cases ht : env.tick op.held with
    | error e => rfl
    | ok held =>
      obtain ⟨op', hread, hrest, hkind, hheld⟩ := @read_cons { op with held := held } row _ hp
      dsimp only at hkind hheld
      rw [ok_bind, ok_bind, hread, ok_bind]
      dsimp only
      rw [← hkind, ← hheld]
      cases hproc : env.process op'.kind op'.held row with
      | error e => rfl
      | ok r =>
        obtain ⟨verdict, held'⟩ := r
        rw [ok_bind, ok_bind]
        cases verdict with
        | none =>
          -- the row is dropped and the loop goes on with the next
          have hdrop : ∀ x : Except ExecError (List Row),
              (do let out ← x; .ok (if (none : Option Row).isSome then row :: out else out)) =
                x := by
            intro x
            cases x <;> rfl
          rw [hdrop]
          exact (@ih passes { op' with held := held' } hrest (by omega)).cons
        | some out =>
          obtain rfl := process_emits hproc
          exact ⟨rows, hrest, Nat.lt_succ_self _, rfl, fun hk => process_built hk hproc, rfl⟩

theorem pull_eq_remaining {n : Nat} {rows : List Row} {op : SetOpOp}
    (hp : pending op = rows.map .ok) (hlen : rows.length < n) (hbuilt : Built op) :
    op.pull env n = remaining env op.kind op.held rows := by
  induction n generalizing rows op with
  | zero =>
    omega
  | succ n ih =>
    have hfuel : rows.length < op.rowsLeft + 1 := by
      have h := pending_le_rowsLeft op
      rw [hp, length_map] at h
      omega
    have hcont := @nextLoop_yields env rows _ op hp hfuel
    rw [SetOpOp.pull, next_of_built hbuilt]
    cases hloop : op.nextLoop env (op.rowsLeft + 1) with
    | error e =>
      rw [hloop] at hcont
      exact hcont.symm
    | ok r =>
      obtain ⟨_ | row, op'⟩ := r
      · rw [hloop] at hcont
        exact hcont.symm
      · rw [hloop] at hcont
        obtain ⟨rest, hp', hlt, hkind, hbuilt', heq⟩ := hcont
        rw [heq, ok_bind]
        dsimp only
        rw [ih hp' (by omega) hbuilt', hkind]

/-! ## The two ways of reading the operands -/

theorem setOpRows_concatenated (hk : kind.countsRight = false) (left right : List Row) :
    setOpRows env kind (left.map .ok) (right.map .ok) = remaining env kind {} (left ++ right) := by
  have hp : pending (openSetOp kind (left.map .ok) (right.map .ok)) = (left ++ right).map .ok := by
    rw [map_append]
    exact if_neg (by rw [openSetOp, hk]; simp)
  rw [setOpRows, pull_eq_remaining hp]
  · rfl
  · rw [length_append, length_map, length_map]
    omega
  · intro h
    rw [openSetOp, hk] at h
    cases h

/-- `build_slots` keeps no row, it only counts them. -/
def countStep (env : Env) (kind : Kind) (s : Slots × Held) (row : Row) :
    Except ExecError (Bool × Slots × Held) := do
  let s ← env.countRow kind s.2 s.1 row
  .ok (false, s)

theorem countRows_eq_feed (kind : Kind) : ∀ (rows : List Row) (slots : Slots) (held : Held),
    env.countRows kind (rows.map .ok) held slots =
      (do let (_, s) ← feed (countStep env kind) (slots, held) (rows.map .ok); .ok s) := by
  intro rows
  induction rows with
  | nil =>
    intro slots held
    rfl
  | cons row rows ih =>
    intro slots held
    rw [map_cons, Env.countRows, feed, ok_bind, ok_bind, countStep]
    cases hc : env.countRow kind held slots row with
    | error e => rfl
    | ok s =>
      rw [ok_bind, ok_bind, ok_bind]
      dsimp only
      rw [ih]
      cases hf : feed (countStep env kind) s (rows.map .ok) with
      | error e => rfl
      | ok r => rfl

theorem setOpRows_counted (hk : kind.countsRight = true) (left right : List Row) :
    setOpRows env kind (left.map .ok) (right.map .ok) = (do
      let (_, slots, held) ← feed (countStep env kind) ([], {}) (right.map .ok)
      remaining env kind { held with slots := some slots } left) := by
  have hopen : (openSetOp kind (left.map .ok) (right.map .ok)).next env = (do
      let op ← (openSetOp kind (left.map .ok) (right.map .ok)).buildSlots env
      op.nextLoop env (op.rowsLeft + 1)) := by
    unfold SetOpOp.next
    rw [if_pos (by rw [openSetOp, hk]; rfl)]
  rw [setOpRows, SetOpOp.pull, hopen, SetOpOp.buildSlots]
  have hcount := @countRows_eq_feed env kind right [] {}
  rw [openSetOp]
  rw [hcount]
  cases hf : feed (countStep env kind) ([], {}) (right.map .ok) with
  | error e => rfl
  | ok r =>
    obtain ⟨_, slots, held⟩ := r
    -- from here on the operator is built, and pulls like any other
    let op : SetOpOp := ⟨kind, left.map .ok, [], .left, { held with slots := some slots }⟩
    have hbuilt : Built op := fun _ => rfl
    have hp : pending op = left.map .ok := if_pos hk
    have hpull :=
      @pull_eq_remaining env (left.length + right.length + 1) left op hp (by omega) hbuilt
    rw [SetOpOp.pull, next_of_built hbuilt] at hpull
    rw [length_map, length_map]
    exact hpull

end RubixDb.Proof
