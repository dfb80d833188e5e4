import RubixDb.Proof.SetOpCounts

/-!
# A set operation is exact or fails

What an operator holds are the first occurrences of rows it has to tell apart. It gets to
its last row exactly when these are within the bounds, so a bound that is hit is an error
and never a result with rows missing.
-/

namespace RubixDb.Proof

open Lib SetOp List

variable {rows out right : List Row} {row : Row} {kind : Kind} {held' : Held} {slots : Slots}

variable {env : Env}

/-! ## What is held -/

variable {verdict : Option Row} {left : List Row}

/-- The bytes the rows are taken to occupy; the sum saturates. -/
def heldBytes (rows : List Row) : Nat := min usizeMax (rows.map rowBytes).sum

def WithinBounds (env : Env) (rows : List Row) : Prop :=
  rows.length ≤ env.maxMaterializedRows ∧ heldBytes rows ≤ env.maxMaterializedBytes

/-- Holds `row` as well, unless a row that is not distinct from it is held. -/
def addFirst (rows : List Row) (row : Row) : List Row :=
  if rows.any (rowsNotDistinct row) then rows else rows ++ [row]

/-- The first occurrence of each distinct row. -/
def firsts (rows : List Row) : List Row := rows.foldl addFirst []

/-- The rows an operator holds when it is done. -/
def Kind.held : Kind → List Row → List Row → List Row
  | .unionAll, _, _ => []
  | .union, left, right => firsts (left ++ right)
  | .except, left, right => firsts (right ++ left)
  | _, _, right => firsts right

/-- How one row the operator reads adds to what it holds. -/
def Kind.hold : Kind → List Row → Row → List Row
  | .union, rows, row => addFirst rows row
  | .except, rows, row => addFirst rows row
  | _, rows, _ => rows

theorem WithinBounds.of_append (h : WithinBounds env (rows ++ [row])) : WithinBounds env rows := by
  obtain ⟨hlen, hbytes⟩ := h
  rw [length_append] at hlen
  rw [heldBytes, map_append, sum_append] at hbytes
  refine ⟨by omega, ?_⟩
  rw [heldBytes]
  omega

theorem WithinBounds.of_addFirst (h : WithinBounds env (addFirst rows row)) :
    WithinBounds env rows := by
  unfold addFirst at h
  split at h
  · exact h
  · exact h.of_append

theorem WithinBounds.of_hold (h : WithinBounds env (Kind.hold kind rows row)) :
    WithinBounds env rows := by
  cases kind
  case union => exact WithinBounds.of_addFirst h
  case except => exact WithinBounds.of_addFirst h
  all_goals exact h

theorem heldBytes_append (rows : List Row) (row : Row) :
    min usizeMax (heldBytes rows + rowBytes row) = heldBytes (rows ++ [row]) := by
  rw [heldBytes, heldBytes, map_append, sum_append, map_singleton, sum_singleton]
  omega

/-- `admit` lets a row in exactly when the rows held fit with it. -/
theorem admitRow_eq {held : Held} {rows : List Row} (hbytes : held.bytes = heldBytes rows)
    {row : Row} {what : String} (hfits : WithinBounds env (rows ++ [row])) :
    env.admitRow held rows.length row what =
      .ok { held with bytes := heldBytes (rows ++ [row]) } := by
  obtain ⟨hlen, hle⟩ := hfits
  rw [length_append, length_singleton] at hlen
  unfold Env.admitRow
  rw [if_neg (by omega), hbytes, heldBytes_append, if_neg (by omega)]

theorem fits_of_admitRow {held : Held} (hbytes : held.bytes = heldBytes rows) {what : String}
    (h : env.admitRow held rows.length row what = .ok held') :
    WithinBounds env (rows ++ [row]) ∧
      held' = { held with bytes := heldBytes (rows ++ [row]) } := by
  unfold Env.admitRow at h
  dsimp only at h
  rw [hbytes, heldBytes_append] at h
  split_ifs at h with hlen hle
  refine ⟨⟨?_, by omega⟩, (Except.ok.inj h).symm⟩
  rw [length_append, length_singleton]
  omega

/-! ## The slot table as held rows -/

def keys (slots : Slots) : List Row := slots.map Prod.fst

theorem length_keys (slots : Slots) : (keys slots).length = slots.length := length_map _

theorem getSlot_none_iff (slots : Slots) (row : Row) :
    env.getSlot slots row = none ↔ (keys slots).any (rowsNotDistinct row) = false := by
  rw [Env.getSlot, Option.map_eq_none_iff, find?_eq_none, keys, any_map, any_eq_false]
  constructor
  · intro h entry hentry
    have := h entry hentry
    rw [sameKey_eq, rowsNotDistinct_comm] at this
    exact this
  · intro h entry hentry
    rw [sameKey_eq, rowsNotDistinct_comm]
    exact h entry hentry

theorem keys_setSlot (row : Row) (slot : Slot) : ∀ slots : Slots,
    keys (env.setSlot slots row slot) = keys slots := by
  intro slots
  induction slots with
  | nil => rfl
  | cons entry slots ih =>
    rw [Env.setSlot]
    split
    · rfl
    · rw [keys, map_cons, ← keys, ih, keys, keys, map_cons]

theorem keys_append (slots : Slots) (row : Row) (slot : Slot) :
    keys (slots ++ [(row, slot)]) = keys slots ++ [row] := by
  rw [keys, map_append]
  rfl

theorem addFirst_of_some {slot : Slot}
    (h : env.getSlot slots row = some slot) : addFirst (keys slots) row = keys slots := by
  refine if_pos ?_
  rw [← Bool.not_eq_false, ← @getSlot_none_iff env, h]
  exact Option.some_ne_none slot

theorem addFirst_of_none (h : env.getSlot slots row = none) :
    addFirst (keys slots) row = keys slots ++ [row] :=
  if_neg (by rw [(getSlot_none_iff slots row).mp h]; simp)

/-! ## Counting the right operand -/

theorem bounded_count (kind : Kind) :
    Bounded (countStep env kind) (fun s => s.2.bytes = heldBytes (keys s.1)) (fun s => keys s.1)
      addFirst (WithinBounds env) where
  fits_of_grow _ _ := WithinBounds.of_addFirst
  holds_step := by
    intro s row kept s' hbytes hfits h
    obtain ⟨⟨slots, held⟩, hcount, h⟩ := bind_eq_ok.mp h
    cases h
    have hcount := of_tick_bind hcount
    cases hslot : env.getSlot s.1 row with
    | some slot =>
      rw [hslot] at hcount
      cases hcount
      rw [keys_setSlot, addFirst_of_some hslot]
      exact ⟨hbytes, rfl, hfits⟩
    | none =>
      rw [hslot] at hcount
      obtain ⟨admitted, hroom, hcount⟩ := bind_eq_ok.mp hcount
      cases hcount
      have hticked : ({ s.2 with ticks := s.2.ticks + 1 } : Held).bytes = heldBytes (keys s.1) :=
        hbytes
      rw [← length_keys] at hroom
      obtain ⟨hfits', rfl⟩ := fits_of_admitRow hticked hroom
      rw [keys_append, addFirst_of_none hslot]
      exact ⟨rfl, rfl, hfits'⟩

theorem countStep_ok (hcheck : ∀ n, env.check n = .ok ()) (kind : Kind) (s : Slots × Held)
    (row : Row) (hbytes : s.2.bytes = heldBytes (keys s.1))
    (hfits : WithinBounds env (addFirst (keys s.1) row)) :
    ∃ r, countStep env kind s row = .ok r := by
  rw [countStep, Env.countRow, Env.tick, hcheck, ok_bind, ok_bind]
  cases hslot : env.getSlot s.1 row with
  | some slot => exact ⟨_, rfl⟩
  | none =>
    rw [addFirst_of_none hslot] at hfits
    have hroom := @admitRow_eq env { s.2 with ticks := s.2.ticks + 1 } _ hbytes row kind.what hfits
    rw [length_keys] at hroom
    rw [hroom]
    exact ⟨_, rfl⟩

/-! ## Reading the rows that may be emitted -/

/-- The rows an operator holds. -/
def heldRows (kind : Kind) (held : Held) : List Row :=
  if kind.countsRight then keys (held.slots.getD []) else held.seen

theorem keys_judge {held : Held} {slots' : Slots} (hbytes : held.bytes = heldBytes (keys slots))
    (hfits : WithinBounds env (keys slots)) (hk : kind.countsRight = true)
    (h : env.judge kind held slots row = .ok (verdict, slots', held')) :
    held'.bytes = heldBytes (keys slots') ∧ keys slots' = Kind.hold kind (keys slots) row ∧
      WithinBounds env (keys slots') := by
  unfold Env.judge at h
  cases hslot : env.getSlot slots row with
  | none =>
    rw [hslot] at h
    cases kind
    case except =>
      obtain ⟨admitted, hroom, h⟩ := bind_eq_ok.mp h
      cases h
      rw [← length_keys] at hroom
      obtain ⟨hfits', rfl⟩ := fits_of_admitRow hbytes hroom
      rw [keys_append, Kind.hold, addFirst_of_none hslot]
      exact ⟨rfl, rfl, hfits'⟩
    case unionAll => cases hk
    case union => cases hk
    all_goals
      cases h
      exact ⟨hbytes, rfl, hfits⟩
  | some slot =>
    rw [hslot] at h
    -- the slots are rewritten, the rows held are the same
    have hhold : Kind.hold kind (keys slots) row = keys slots := by
      cases kind
      case except => exact addFirst_of_some hslot
      case union => cases hk
      all_goals rfl
    rw [hhold]
    cases kind <;> dsimp only at h <;> (try split_ifs at h) <;> cases h
    all_goals first
      | exact ⟨hbytes, rfl, hfits⟩
      | (rw [keys_setSlot]; exact ⟨hbytes, rfl, hfits⟩)

/-- The rows held and their bytes, after one row more. -/
theorem heldRows_process {held : Held} (hbytes : held.bytes = heldBytes (heldRows kind held))
    (hfits : WithinBounds env (heldRows kind held))
    (h : env.process kind held row = .ok (verdict, held')) :
    held'.bytes = heldBytes (heldRows kind held') ∧
      heldRows kind held' = Kind.hold kind (heldRows kind held) row ∧
      WithinBounds env (heldRows kind held') := by
  unfold Env.process at h
  split at h
  · cases h
    exact ⟨hbytes, rfl, hfits⟩
  · rw [any_sameKey] at h
    split_ifs at h with hseen
    · cases h
      exact ⟨hbytes, (if_pos hseen).symm, hfits⟩
    · obtain ⟨admitted, hroom, h⟩ := bind_eq_ok.mp h
      cases h
      obtain ⟨hfits', rfl⟩ := fits_of_admitRow hbytes hroom
      exact ⟨rfl, (if_neg hseen).symm, hfits'⟩
  · rename_i hnotAll hnotUnion
    have hk : kind.countsRight = true := by
      cases kind
      case unionAll => exact absurd rfl hnotAll
      case union => exact absurd rfl hnotUnion
      all_goals rfl
    obtain ⟨⟨v, slots, held₁⟩, hjudge, h⟩ := bind_eq_ok.mp h
    cases h
    rw [heldRows, if_pos hk] at hbytes hfits ⊢
    rw [heldRows, if_pos hk]
    have hkeys := keys_judge hbytes hfits hk hjudge
    exact hkeys

/-- Within the bounds a row is always taken. -/
theorem process_ok {kind : Kind} {held : Held} {row : Row}
    (hbytes : held.bytes = heldBytes (heldRows kind held))
    (hfits : WithinBounds env (Kind.hold kind (heldRows kind held) row)) :
    ∃ r, env.process kind held row = .ok r := by
  unfold Env.process
  split
  · exact ⟨_, rfl⟩
  · rw [any_sameKey]
    change held.bytes = heldBytes held.seen at hbytes
    change WithinBounds env (addFirst held.seen row) at hfits
    split_ifs with hseen
    · exact ⟨_, rfl⟩
    · rw [addFirst, if_neg hseen] at hfits
      rw [admitRow_eq hbytes hfits]
      exact ⟨_, rfl⟩
  · rename_i hnotAll hnotUnion
    have hjudge : ∃ r, env.judge kind held (held.slots.getD []) row = .ok r := by
      unfold Env.judge
      cases hslot : env.getSlot (held.slots.getD []) row with
      | some slot =>
        cases kind <;> dsimp only <;> (try split_ifs) <;> exact ⟨_, rfl⟩
      | none =>
        cases kind
        case except =>
          change held.bytes = heldBytes (keys (held.slots.getD [])) at hbytes
          change WithinBounds env (addFirst (keys (held.slots.getD [])) row) at hfits
          rw [addFirst_of_none hslot] at hfits
          have hroom := @admitRow_eq env held _ hbytes row "EXCEPT" hfits
          rw [length_keys] at hroom
          rw [hroom]
          exact ⟨_, rfl⟩
        all_goals exact ⟨_, rfl⟩
    obtain ⟨r, hjudge⟩ := hjudge
    rw [hjudge]
    exact ⟨_, rfl⟩

theorem bounded_pass (kind : Kind) :
    Bounded (passStep env kind) (fun held => held.bytes = heldBytes (heldRows kind held))
      (heldRows kind) (Kind.hold kind) (WithinBounds env) where
  fits_of_grow _ _ := WithinBounds.of_hold
  holds_step := by
    intro held row kept held' hbytes hfits h
    have h := of_tick_bind h
    obtain ⟨⟨verdict, held₁⟩, hproc, h⟩ := bind_eq_ok.mp h
    cases h
    have hticked : heldRows kind { held with ticks := held.ticks + 1 } = heldRows kind held := rfl
    rw [← hticked] at hbytes hfits ⊢
    exact heldRows_process hbytes hfits hproc

theorem passStep_ok (hcheck : ∀ n, env.check n = .ok ()) (kind : Kind) (held : Held) (row : Row)
    (hbytes : held.bytes = heldBytes (heldRows kind held))
    (hfits : WithinBounds env (Kind.hold kind (heldRows kind held) row)) :
    ∃ r, passStep env kind held row = .ok r := by
  rw [passStep, Env.tick, hcheck, ok_bind, ok_bind]
  obtain ⟨r, hproc⟩ := @process_ok env kind { held with ticks := held.ticks + 1 } row hbytes hfits
  rw [hproc]
  exact ⟨_, rfl⟩

/-! ## The result -/

/-- What the operator holds in the end: the rows of the right operand it counted, and what
the rows it read after that added. -/
theorem held_eq_foldl (kind : Kind) (left right : List Row) :
    Kind.held kind left right =
      if kind.countsRight then left.foldl (Kind.hold kind) (firsts right)
      else (left ++ right).foldl (Kind.hold kind) [] := by
  have hkeep : ∀ rows held : List Row, rows.foldl (fun held _ => held) held = held := by
    intro rows
    induction rows with
    | nil => exact fun _ => rfl
    | cons row rows ih => exact fun held => ih held
  cases kind
  case unionAll => exact (hkeep (left ++ right) []).symm
  case union => rfl
  case except => exact foldl_append
  all_goals exact (hkeep left (firsts right)).symm

theorem withinBounds_nil : WithinBounds env [] :=
  ⟨Nat.zero_le _, by simp [heldBytes]⟩

theorem remaining_ok (hcheck : ∀ n, env.check n = .ok ()) {held : Held}
    (hbytes : held.bytes = heldBytes (heldRows kind held))
    (hfits : WithinBounds env (rows.foldl (Kind.hold kind) (heldRows kind held))) :
    ∃ out, remaining env kind held rows = .ok out := by
  obtain ⟨⟨out, held'⟩, hfeed⟩ := (bounded_pass kind).feed_ok (passStep_ok hcheck kind) hbytes hfits
  rw [remaining, hfeed, ok_bind]
  dsimp only
  rw [Env.tick, hcheck, ok_bind]
  exact ⟨out, rfl⟩

theorem fits_of_remaining {held : Held} (hbytes : held.bytes = heldBytes (heldRows kind held))
    (hfits : WithinBounds env (heldRows kind held)) (h : remaining env kind held rows = .ok out) :
    WithinBounds env (rows.foldl (Kind.hold kind) (heldRows kind held)) := by
  obtain ⟨held', hfeed⟩ := feed_of_remaining h
  obtain ⟨_, hholds, hfits'⟩ := (bounded_pass kind).holds_feed hbytes hfits hfeed
  rwa [hholds] at hfits'

/-- After counting the right operand its first occurrences are held. -/
theorem heldRows_counted (hk : kind.countsRight = true) {held : Held}
    (h : feed (countStep env kind) ([], {}) (right.map .ok) = .ok (out, slots, held)) :
    held.bytes = heldBytes (heldRows kind { held with slots := some slots }) ∧
      heldRows kind { held with slots := some slots } = firsts right ∧
        WithinBounds env (firsts right) := by
  obtain ⟨hbytes, hholds, hfits⟩ := (bounded_count kind).holds_feed rfl withinBounds_nil h
  have hheld : heldRows kind { held with slots := some slots } = keys slots := if_pos hk
  rw [hheld]
  rw [hholds] at hfits
  exact ⟨hbytes, hholds, hfits⟩

theorem fits_of_setOpRows (h : setOpRows env kind (left.map .ok) (right.map .ok) = .ok out) :
    WithinBounds env (Kind.held kind left right) := by
  rw [held_eq_foldl]
  cases hk : kind.countsRight with
  | false =>
    rw [setOpRows_concatenated hk] at h
    have hempty : heldRows kind {} = [] := if_neg (by rw [hk]; simp)
    have hfits := fits_of_remaining (by rw [hempty]; rfl) (by rw [hempty]; exact withinBounds_nil) h
    rwa [hempty] at hfits
  | true =>
    rw [setOpRows_counted hk] at h
    obtain ⟨⟨_, slots, held⟩, hcount, h⟩ := bind_eq_ok.mp h
    obtain ⟨hbytes, hheld, hright⟩ := heldRows_counted hk hcount
    have hfits := fits_of_remaining hbytes (by rw [hheld]; exact hright) h
    rwa [hheld] at hfits

theorem setOpRows_ok (hcheck : ∀ n, env.check n = .ok ())
    (hfits : WithinBounds env (Kind.held kind left right)) :
    ∃ out, setOpRows env kind (left.map .ok) (right.map .ok) = .ok out := by
  rw [held_eq_foldl] at hfits
  cases hk : kind.countsRight with
  | false =>
    rw [hk] at hfits
    rw [setOpRows_concatenated hk]
    have hempty : heldRows kind {} = [] := if_neg (by rw [hk]; simp)
    exact remaining_ok hcheck (by rw [hempty]; rfl) (by rw [hempty]; exact hfits)
  | true =>
    rw [hk] at hfits
    rw [setOpRows_counted hk]
    -- what is held only grows, so that the right operand alone fits
    have hright : WithinBounds env (firsts right) := (bounded_pass kind).fits_of_foldl hfits
    obtain ⟨⟨out, slots, held⟩, hcount⟩ :=
      (bounded_count kind).feed_ok (s := ([], {})) (countStep_ok hcheck kind) rfl hright
    obtain ⟨hbytes, hheld, _⟩ := heldRows_counted hk hcount
    rw [hcount]
    exact remaining_ok hcheck hbytes (by rw [hheld]; exact hfits)

/-- A set operation that produces a result produces every row as often as its operator
says, counting rows that are not distinct as one row, and in the order of the operands. It
fails when what it has to hold passes a bound, and produces its result when it does not and
no check of the deadline fails. -/
theorem set_operations_are_exact (env : Env) (kind : Kind) (left right : List Row) :
    (∀ out, setOpRows env kind (left.map .ok) (right.map .ok) = .ok out →
      out.Sublist (left ++ right) ∧
      ∀ r, copies r out = Kind.copies kind (copies r left) (copies r right)) ∧
    (¬ WithinBounds env (Kind.held kind left right) →
      ∃ e, setOpRows env kind (left.map .ok) (right.map .ok) = .error e) ∧
    ((∀ n, env.check n = .ok ()) → WithinBounds env (Kind.held kind left right) →
      ∃ out, setOpRows env kind (left.map .ok) (right.map .ok) = .ok out) := by
  refine ⟨fun out h => ⟨setOpRows_sublist h, copies_setOpRows h⟩, fun hnot => ?_,
    fun hcheck hfits => setOpRows_ok hcheck hfits⟩
  cases h : setOpRows env kind (left.map .ok) (right.map .ok) with
  | error e => exact ⟨e, rfl⟩
  | ok out => exact absurd (fits_of_setOpRows h) hnot

end RubixDb.Proof
