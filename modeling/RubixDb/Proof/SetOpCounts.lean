import RubixDb.Proof.SetOpRuns

/-!
# How often a set operation produces a row

Only rows that are not distinct from `r` touch what the operator remembers of `r`, and that
is a slot or a flag. So the number of copies of `r` it produces is what a machine on one
slot produces, which is computed by induction on the number of copies it is given.
-/

namespace RubixDb.Proof

open Lib SetOp

variable {env : Env} {slots : Slots} {row : Row} {kind : Kind} {held held' : Held}
    {slot : Option Slot} {out left right : List Row}

/-- How often `r` occurs, up to rows that are not distinct. -/
def copies (r : Row) (rows : List Row) : Nat := rows.countP (rowsNotDistinct r)

/-- How often an operator is to produce a row with `l` copies on the left and `m` on the
right. -/
def Kind.copies : Kind → Nat → Nat → Nat
  | .unionAll, l, m => l + m
  | .union, l, m => min 1 (l + m)
  | .intersect, l, m => min 1 l * min 1 m
  | .intersectAll, l, m => min l m
  | .except, l, m => if 0 < l ∧ m = 0 then 1 else 0
  | .exceptAll, l, m => l - m

/-! ## The slot table -/

theorem getSlot_congr {a b : Row} (h : rowsNotDistinct a b = true) :
    env.getSlot slots a = env.getSlot slots b := by
  unfold Env.getSlot
  congr 2
  funext entry
  rw [sameKey_eq, sameKey_eq, rowsNotDistinct_comm, rowsNotDistinct_congr h, rowsNotDistinct_comm]

theorem getSlot_setSlot (key r : Row) (slot : Slot) : ∀ slots : Slots,
    env.getSlot (env.setSlot slots key slot) r =
      if rowsNotDistinct r key then (env.getSlot slots r).map fun _ => slot
      else env.getSlot slots r := by
  intro slots
  induction slots with
  | nil => simp [Env.setSlot, Env.getSlot]
  | cons entry slots ih =>
    have hget : ∀ (e : Row × Slot) (es : Slots), env.getSlot (e :: es) r =
        if rowsNotDistinct r e.1 then some e.2 else env.getSlot es r := by
      intro e es
      rw [Env.getSlot, List.find?_cons, sameKey_eq, rowsNotDistinct_comm]
      cases rowsNotDistinct r e.1 <;> rfl
    rw [Env.setSlot, sameKey_eq, hget]
    by_cases hkey : rowsNotDistinct entry.1 key = true
    · rw [if_pos hkey, hget]
      rw [rowsNotDistinct_comm r entry.1, rowsNotDistinct_congr hkey, rowsNotDistinct_comm key r]
      split <;> rfl
    · rw [if_neg hkey, hget, ih]
      by_cases hr : rowsNotDistinct r entry.1 = true
      · rw [if_pos hr, if_pos hr, if_neg]
        intro hrk
        rw [rowsNotDistinct_comm] at hr
        rw [rowsNotDistinct_congr hr] at hkey
        exact hkey hrk
      · rw [if_neg hr, if_neg hr]

theorem getSlot_append {key : Row} (hnone : env.getSlot slots key = none) (r : Row)
    (slot : Slot) : env.getSlot (slots ++ [(key, slot)]) r =
      if rowsNotDistinct r key then some slot else env.getSlot slots r := by
  have hsplit : env.getSlot (slots ++ [(key, slot)]) r =
      (env.getSlot slots r).or (if rowsNotDistinct r key then some slot else none) := by
    rw [Env.getSlot, List.find?_append, Option.map_or, List.find?_singleton, sameKey_eq,
      rowsNotDistinct_comm]
    cases rowsNotDistinct r key <;> rfl
  rw [hsplit]
  by_cases hr : rowsNotDistinct r key = true
  · rw [getSlot_congr hr, hnone, if_pos hr]
    rfl
  · rw [if_neg hr, if_neg hr, Option.or_none]

/-! ## What happens to one row -/

/-- `judge` on the slot of the row it is given. -/
def slotTurn : Kind → Option Slot → Bool × Option Slot
  | .intersect, some slot =>
    if slot.emitted then (false, some slot) else (true, some { slot with emitted := true })
  | .intersectAll, some slot =>
    if 0 < slot.remaining then (true, some { slot with remaining := slot.remaining - 1 })
    else (false, some slot)
  | .except, some slot =>
    if 0 < slot.remaining then (false, some slot)
    else if slot.emitted then (false, some slot)
    else (true, some { slot with emitted := true })
  | .except, none => (true, some ⟨0, true⟩)
  | .exceptAll, some slot =>
    if 0 < slot.remaining then (false, some { slot with remaining := slot.remaining - 1 })
    else (true, some slot)
  | .exceptAll, none => (true, none)
  | _, slot => (false, slot)

/-- Writing to the slot of `row`, as every other row sees it. -/
theorem getSlot_write {r : Row} {slot new : Slot} (h : env.getSlot slots row = some slot) :
    env.getSlot (env.setSlot slots row new) r =
      if rowsNotDistinct r row then some new else env.getSlot slots r := by
  rw [getSlot_setSlot]
  by_cases hr : rowsNotDistinct r row = true
  · rw [if_pos hr, if_pos hr, getSlot_congr hr, h]
    rfl
  · rw [if_neg hr, if_neg hr]

theorem judge_turn {slots' : Slots} {verdict : Option Row}
    (h : env.judge kind held slots row = .ok (verdict, slots', held')) :
    ∃ new, slotTurn kind (env.getSlot slots row) = (verdict.isSome, new) ∧
      ∀ r, env.getSlot slots' r = if rowsNotDistinct r row then new else env.getSlot slots r := by
  -- a slot that is left alone reads the same for rows that share it
  have hsame : ∀ r, env.getSlot slots r =
      if rowsNotDistinct r row then env.getSlot slots row else env.getSlot slots r := by
    intro r
    by_cases hr : rowsNotDistinct r row = true
    · rw [if_pos hr, getSlot_congr hr]
    · rw [if_neg hr]
  unfold Env.judge at h
  cases hslot : env.getSlot slots row with
  | none =>
    rw [hslot] at hsame h
    cases kind
    case except =>
      obtain ⟨_, _, h⟩ := bind_eq_ok.mp h
      cases h
      exact ⟨_, rfl, fun r => getSlot_append hslot r _⟩
    all_goals
      cases h
      exact ⟨_, rfl, hsame⟩
  | some slot =>
    rw [hslot] at hsame h
    cases kind <;> dsimp only [slotTurn] at h ⊢ <;> (try split_ifs at h ⊢) <;> cases h
    all_goals first
      | exact ⟨_, rfl, hsame⟩
      | exact ⟨_, rfl, fun r => getSlot_write hslot⟩

/-! ## Rows the operator judges -/

/-- What is remembered of `r` in the slot table. -/
def slotOf (env : Env) (r : Row) (held : Held) : Option Slot := env.getSlot (held.slots.getD []) r

theorem of_tick_bind {f : Held → Except ExecError α} {a : α}
    (h : (env.tick held >>= f) = .ok a) : f { held with ticks := held.ticks + 1 } = .ok a := by
  obtain ⟨_, htick, h⟩ := bind_eq_ok.mp h
  obtain ⟨_, -, htick⟩ := bind_eq_ok.mp htick
  cases htick
  exact h

theorem tracks_judge (hk : kind.countsRight = true) (r : Row) :
    Tracks (passStep env kind) (rowsNotDistinct r) (slotOf env r) (slotTurn kind) := by
  intro held row kept held' h
  have h := of_tick_bind h
  obtain ⟨⟨verdict, held₁⟩, hproc, h⟩ := bind_eq_ok.mp h
  cases h
  have hjudge : ∃ slots held₂, env.judge kind { held with ticks := held.ticks + 1 }
      (held.slots.getD []) row = .ok (verdict, slots, held₂) ∧ held'.slots = some slots := by
    unfold Env.process at hproc
    split at hproc
    · cases hk
    · cases hk
    · obtain ⟨⟨v, slots, held₂⟩, hjudge, hproc⟩ := bind_eq_ok.mp hproc
      cases hproc
      exact ⟨slots, held₂, hjudge, rfl⟩
  obtain ⟨slots, held₂, hjudge, hslots⟩ := hjudge
  obtain ⟨new, hturn, hget⟩ := judge_turn hjudge
  have hafter : slotOf env r held' =
      if rowsNotDistinct r row then new else slotOf env r held := by
    rw [slotOf, hslots]
    exact hget r
  by_cases hr : rowsNotDistinct r row = true
  · rw [if_pos hr] at hafter ⊢
    rw [hafter, ← hturn, slotOf, getSlot_congr hr]
  · rw [if_neg hr] at hafter ⊢
    exact hafter

/-! ## Rows the operator counts -/

def countTurn : Option Slot → Bool × Option Slot
  | none => (false, some ⟨1, false⟩)
  | some slot => (false, some { slot with remaining := slot.remaining + 1 })

theorem tracks_count (kind : Kind) (r : Row) :
    Tracks (countStep env kind) (rowsNotDistinct r) (fun s => env.getSlot s.1 r) countTurn := by
  intro s row kept s' h
  obtain ⟨⟨slots, held⟩, hcount, h⟩ := bind_eq_ok.mp h
  cases h
  obtain ⟨ticked, _, hcount⟩ := bind_eq_ok.mp hcount
  have hget : env.getSlot slots r =
      if rowsNotDistinct r row then (countTurn (env.getSlot s.1 row)).2 else env.getSlot s.1 r := by
    cases hslot : env.getSlot s.1 row with
    | some slot =>
      rw [hslot] at hcount
      cases hcount
      exact getSlot_write hslot
    | none =>
      rw [hslot] at hcount
      obtain ⟨_, _, hcount⟩ := bind_eq_ok.mp hcount
      cases hcount
      exact getSlot_append hslot r _
  by_cases hr : rowsNotDistinct r row = true
  · rw [if_pos hr] at hget ⊢
    dsimp only
    rw [hget, getSlot_congr hr]
    cases env.getSlot s.1 row <;> rfl
  · rw [if_neg hr] at hget ⊢
    exact hget

/-- The slot of a row with `n` copies on the right. -/
def countedSlot (n : Nat) : Option Slot := if n = 0 then none else some ⟨n, false⟩

theorem after_countTurn (n : Nat) : after countTurn none n = countedSlot n := by
  have hsome : ∀ n m, after countTurn (some ⟨m, false⟩) n = some ⟨m + n, false⟩ := by
    intro n
    induction n with
    | zero => exact fun m => rfl
    | succ n ih =>
      intro m
      show after countTurn (some ⟨m + 1, false⟩) n = _
      rw [ih, Nat.add_right_comm, Nat.add_assoc]
  cases n with
  | zero => rfl
  | succ n =>
    rw [after, countTurn, hsome, countedSlot]
    congr 2
    omega

/-! ## Rows a union has seen -/

def seenBefore (r : Row) (held : Held) : Bool := held.seen.any (rowsNotDistinct r)

def unionTurn (seen : Bool) : Bool × Bool := (!seen, true)

/-- `UNION` keeps a row the first time it is seen. -/
theorem tracks_union (r : Row) :
    Tracks (passStep env .union) (rowsNotDistinct r) (seenBefore r) unionTurn := by
  intro held row kept held' h
  have h := of_tick_bind h
  obtain ⟨⟨verdict, held₁⟩, hproc, h⟩ := bind_eq_ok.mp h
  cases h
  have hany : ∀ x, rowsNotDistinct x row = true →
      (held.seen.any fun key => env.sameKey key row) = seenBefore x held := by
    intro x hx
    rw [any_sameKey]
    congr 1
    funext key
    rw [rowsNotDistinct_congr hx]
  unfold Env.process at hproc
  split_ifs at hproc with hseen
  · -- the row was seen before, and nothing changes
    cases hproc
    by_cases hr : rowsNotDistinct r row = true
    · rw [if_pos hr]
      rw [hany r hr] at hseen
      show unionTurn (seenBefore r held) = (false, seenBefore r held)
      rw [hseen]
      rfl
    · rw [if_neg hr]
      rfl
  · obtain ⟨admitted, hroom, hproc⟩ := bind_eq_ok.mp hproc
    cases hproc
    have hafter : admitted.seen = held.seen := by
      unfold Env.admitRow at hroom
      dsimp only at hroom
      split_ifs at hroom
      cases hroom
      rfl
    by_cases hr : rowsNotDistinct r row = true
    · rw [if_pos hr]
      rw [hany r hr, Bool.not_eq_true] at hseen
      rw [hseen]
      show (true, true) = (true, (admitted.seen ++ [row]).any (rowsNotDistinct r))
      rw [List.any_append, List.any_cons, hr, Bool.true_or, Bool.or_true]
    · rw [if_neg hr]
      rw [Bool.not_eq_true] at hr
      show (admitted.seen ++ [row]).any (rowsNotDistinct r) = held.seen.any (rowsNotDistinct r)
      rw [hafter, List.any_append, List.any_cons, List.any_nil, hr, Bool.or_false, Bool.or_false]

theorem tracks_unionAll (r : Row) :
    Tracks (passStep env .unionAll) (rowsNotDistinct r) (fun _ => ()) (fun _ => (true, ())) := by
  intro held row kept held' h
  obtain ⟨_, _, h⟩ := bind_eq_ok.mp h
  cases h
  split <;> rfl

/-! ## Counting what one slot lets through -/

/-- A slot that drops its row without changing drops every copy. -/
theorem emitted_stuck (h : slotTurn kind slot = (false, slot))
    (n : Nat) : emitted (slotTurn kind) slot n = 0 := by
  induction n with
  | zero => rfl
  | succ n ih => simp [emitted, h, ih]

/-- A slot that lets its row through once and drops it from then on. -/
theorem emitted_once {slot' : Option Slot} (h : slotTurn kind slot = (true, slot'))
    (h' : slotTurn kind slot' = (false, slot')) (n : Nat) :
    emitted (slotTurn kind) slot n = min 1 n := by
  cases n with
  | zero => rfl
  | succ n =>
    rw [emitted, h, if_pos rfl, emitted_stuck h']
    omega

theorem emitted_intersectAll (l : Nat) : ∀ (m : Nat) (e : Bool),
    emitted (slotTurn .intersectAll) (some ⟨m, e⟩) l = min l m := by
  induction l with
  | zero =>
    intro m e
    rw [emitted, Nat.zero_min]
  | succ l ih =>
    intro m e
    cases m with
    | zero => exact emitted_stuck (by rfl) _
    | succ m =>
      -- a right copy is used up for the left one
      show 1 + emitted (slotTurn .intersectAll) (some ⟨m, e⟩) l = _
      rw [ih]
      omega

theorem emitted_exceptAll (l : Nat) : ∀ (m : Nat) (e : Bool),
    emitted (slotTurn .exceptAll) (some ⟨m, e⟩) l = l - m := by
  induction l with
  | zero =>
    intro m e
    rw [emitted, Nat.zero_sub]
  | succ l ih =>
    intro m e
    cases m with
    | zero =>
      show 1 + emitted (slotTurn .exceptAll) (some ⟨0, e⟩) l = _
      rw [ih]
      omega
    | succ m =>
      show 0 + emitted (slotTurn .exceptAll) (some ⟨m, e⟩) l = _
      rw [ih]
      omega

theorem emitted_exceptAll_none (l : Nat) : emitted (slotTurn .exceptAll) none l = l := by
  induction l with
  | zero => rfl
  | succ l ih =>
    show 1 + emitted (slotTurn .exceptAll) none l = _
    omega

theorem emitted_counted (hk : kind.countsRight = true) (l m : Nat) :
    emitted (slotTurn kind) (countedSlot m) l = Kind.copies kind l m := by
  rcases Nat.eq_zero_or_pos m with rfl | hm
  · rw [countedSlot, if_pos rfl]
    cases kind with
    | unionAll => cases hk
    | union => cases hk
    | intersect => exact emitted_stuck (by rfl) l
    | intersectAll =>
      rw [Kind.copies, Nat.min_zero]
      exact emitted_stuck (by rfl) l
    | except =>
      have hseen : slotTurn .except none = (true, some ⟨0, true⟩) := rfl
      rw [emitted_once hseen rfl, Kind.copies]
      split <;> omega
    | exceptAll => exact emitted_exceptAll_none l
  · rw [countedSlot, if_neg (by omega)]
    cases kind with
    | unionAll => cases hk
    | union => cases hk
    | intersect =>
      have hseen : slotTurn .intersect (some ⟨m, false⟩) = (true, some ⟨m, true⟩) := rfl
      rw [emitted_once hseen rfl, Kind.copies, Nat.min_eq_left hm, Nat.mul_one]
    | intersectAll => exact emitted_intersectAll l m false
    | except =>
      have hdrop : slotTurn .except (some ⟨m, false⟩) = (false, some ⟨m, false⟩) := if_pos hm
      rw [emitted_stuck hdrop, Kind.copies, if_neg (by omega)]
    | exceptAll => exact emitted_exceptAll l m false

theorem emitted_union (n : Nat) : emitted unionTurn false n = min 1 n := by
  have hseen : ∀ n, emitted unionTurn true n = 0 := by
    intro n
    induction n with
    | zero => rfl
    | succ n ih => simp [emitted, unionTurn, ih]
  cases n with
  | zero => rfl
  | succ n =>
    show 1 + emitted unionTurn true n = _
    rw [hseen]
    omega

theorem emitted_all (n : Nat) : emitted (fun _ : Unit => (true, ())) () n = n := by
  induction n with
  | zero => rfl
  | succ n ih =>
    show 1 + emitted (fun _ : Unit => (true, ())) () n = _
    omega

/-! ## The result -/

theorem feed_of_remaining {rows : List Row} (h : remaining env kind held rows = .ok out) :
    ∃ held', feed (passStep env kind) held (rows.map .ok) = .ok (out, held') := by
  obtain ⟨⟨out', held'⟩, hfeed, h⟩ := bind_eq_ok.mp h
  obtain ⟨_, _, h⟩ := bind_eq_ok.mp h
  cases h
  exact ⟨held', hfeed⟩

theorem copies_append (r : Row) (xs ys : List Row) :
    copies r (xs ++ ys) = copies r xs + copies r ys :=
  List.countP_append

/-- Every row is produced as often as it is to be. -/
theorem copies_setOpRows (h : setOpRows env kind (left.map .ok) (right.map .ok) = .ok out)
    (r : Row) : copies r out = Kind.copies kind (copies r left) (copies r right) := by
  cases hk : kind.countsRight with
  | false =>
    rw [setOpRows_concatenated hk] at h
    obtain ⟨held', hfeed⟩ := feed_of_remaining h
    have hsum := copies_append r left right
    cases kind
    case unionAll =>
      rw [copies, ((tracks_unionAll r).countP_feed hfeed).1, emitted_all]
      exact hsum
    case union =>
      rw [copies, ((tracks_union r).countP_feed hfeed).1]
      show emitted unionTurn false (copies r (left ++ right)) = _
      rw [emitted_union, hsum]
      rfl
    all_goals cases hk
  | true =>
    rw [setOpRows_counted hk] at h
    obtain ⟨⟨_, slots, held⟩, hcount, h⟩ := bind_eq_ok.mp h
    obtain ⟨held', hfeed⟩ := feed_of_remaining h
    have hslot := ((tracks_count kind r).countP_feed hcount).2
    rw [copies, ((tracks_judge hk r).countP_feed hfeed).1]
    show emitted (slotTurn kind) (env.getSlot slots r) (copies r left) = _
    rw [hslot]
    show emitted (slotTurn kind) (after countTurn none (copies r right)) (copies r left) = _
    rw [after_countTurn, emitted_counted hk]

/-- Rows come out in the order in which they stand in the operands. -/
theorem setOpRows_sublist (h : setOpRows env kind (left.map .ok) (right.map .ok) = .ok out) :
    out.Sublist (left ++ right) := by
  cases hk : kind.countsRight with
  | false =>
    rw [setOpRows_concatenated hk] at h
    obtain ⟨_, hfeed⟩ := feed_of_remaining h
    exact feed_sublist hfeed
  | true =>
    rw [setOpRows_counted hk] at h
    obtain ⟨⟨_, slots, held⟩, _, h⟩ := bind_eq_ok.mp h
    obtain ⟨_, hfeed⟩ := feed_of_remaining h
    exact (feed_sublist hfeed).trans (List.sublist_append_left left right)

end RubixDb.Proof
