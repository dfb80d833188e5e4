import RubixDb.Proof.KeyDecode
import RubixDb.Relational.KeyRange

/-!
# The key behind all keys with a given beginning

Ranges are made from encodings by adding one to the last byte, with a carry. Added to a
complete encoding of leading columns this is the first key behind those that start with
it, but not for a reason that holds of all byte strings: `01 FF` plus one is `02 00`, and
the key `02` is in between. No key ends inside such a carry, because a column that ends in
`FF` has a fixed width.
-/

namespace RubixDb.Proof

open Lib List

variable {x y u p q s r : Bytes} {v w : RelationalValue} {m : Nat} {b : UInt8}

/-! ## Order -/

theorem compare_eq_lt_iff : compare x y = .lt ↔ x < y := by
  induction x generalizing y with
  | nil => cases y <;> simp [List.compare_nil_cons]
  | cons a x ih =>
    cases y with
    | nil => simp [List.compare_cons_nil]
    | cons b y =>
      rw [List.compare_cons_cons, List.cons_lt_cons_iff, Ordering.then_eq_lt, ih, compare_byte,
        Nat.compare_eq_lt, Nat.compare_eq_eq, UInt8.lt_iff_toNat_lt, UInt8.toNat_inj]

theorem append_lt_append_iff (p : Bytes) : p ++ x < p ++ y ↔ x < y := by
  rw [← compare_eq_lt_iff, ← compare_eq_lt_iff, separates_self p x y, Ordering.eq_then]

theorem append_le_append_iff (p : Bytes) : p ++ x ≤ p ++ y ↔ x ≤ y := by
  rw [← not_lt, ← not_lt, append_lt_append_iff]

/-- Codewords that differ decide the order of what they begin. -/
theorem lt_iff_of_separates {o : Ordering} {v : Bytes} (h : Separates o x y) (ho : o ≠ .eq) :
    x ++ u < y ++ v ↔ o = .lt := by
  rw [← compare_eq_lt_iff, h u v]
  cases o with
  | lt => simp [Ordering.then]
  | eq => exact absurd rfl ho
  | gt => simp [Ordering.then]

/-! ## Adding one -/

theorem incrementReversed_eq_some (h : incrementReversed p = some q) :
    ∃ m b r, b ≠ 255 ∧ p = List.replicate m 255 ++ b :: r ∧
      q = List.replicate m 0 ++ (b + 1) :: r := by
  induction p generalizing q with
  | nil => cases h
  | cons c p ih =>
    rw [incrementReversed] at h
    by_cases hc : c = 255
    · rw [if_pos hc] at h
      obtain ⟨q', hq', rfl⟩ := Option.map_eq_some_iff.mp h
      obtain ⟨m, b, r, hb, hp, hq⟩ := ih hq'
      exact ⟨m + 1, b, r, hb, by rw [hp, hc]; rfl, by rw [hq]; rfl⟩
    · rw [if_neg hc] at h
      exact ⟨0, c, p, hc, rfl, (Option.some.inj h).symm⟩

theorem incrementReversed_eq_none (h : incrementReversed p = none) :
    p = List.replicate p.length 255 := by
  induction p with
  | nil => rfl
  | cons c p ih =>
    rw [incrementReversed] at h
    by_cases hc : c = 255
    · rw [if_pos hc] at h
      rw [length_cons, replicate_succ, ← ih (Option.map_eq_none_iff.mp h), hc]
    · rw [if_neg hc] at h
      cases h

/-- The carry runs over the `FF`s at the end. -/
theorem increment_eq_some (h : increment p = some q) :
    ∃ r b m, b ≠ 255 ∧ p = r ++ b :: List.replicate m 255 ∧
      q = r ++ (b + 1) :: List.replicate m 0 := by
  obtain ⟨q', hq', rfl⟩ := Option.map_eq_some_iff.mp h
  obtain ⟨m, b, r, hb, hp, rfl⟩ := incrementReversed_eq_some hq'
  refine ⟨r.reverse, b, m, hb, ?_, ?_⟩
  · rw [← reverse_reverse p, hp]
    simp
  · simp

theorem increment_eq_none (h : increment p = none) : p = List.replicate p.length 255 := by
  have hrev := incrementReversed_eq_none (Option.map_eq_none_iff.mp h)
  rw [← reverse_reverse p, hrev]
  simp

/-- Nothing is above a string of `FF`s but what starts with it. -/
theorem lt_or_isPrefix_replicate (m : Nat) (k : Bytes) :
    k < List.replicate m 255 ∨ List.replicate m 255 <+: k := by
  induction m generalizing k with
  | zero => exact .inr nil_prefix
  | succ m ih =>
    cases k with
    | nil => exact .inl (nil_lt_cons _ _)
    | cons c k =>
      rw [replicate_succ, cons_lt_cons_iff, cons_prefix_cons]
      by_cases hc : c = 255
      · rcases ih k with h | h
        · exact .inl (.inr ⟨hc, h⟩)
        · exact .inr ⟨hc.symm, h⟩
      · refine .inl (.inl ?_)
        have hlt := c.toNat_lt
        have hne : c.toNat ≠ 255 := fun h => hc (UInt8.toNat_inj.mp h)
        show c.toNat < 255
        omega

/-- Below a string of zeros are only shorter ones. -/
theorem eq_replicate_of_lt_replicate {k : Bytes} (h : k < List.replicate m 0) :
    ∃ j, j < m ∧ k = List.replicate j 0 := by
  induction m generalizing k with
  | zero => exact absurd h (not_lt_nil _)
  | succ m ih =>
    cases k with
    | nil => exact ⟨0, Nat.succ_pos m, rfl⟩
    | cons c k =>
      rw [replicate_succ, cons_lt_cons_iff] at h
      rcases h with h | ⟨rfl, h⟩
      · exact absurd h UInt8.not_lt_zero
      · obtain ⟨j, hj, rfl⟩ := ih h
        exact ⟨j + 1, Nat.succ_lt_succ hj, rfl⟩

/-- No key ends inside the carry. -/
def CarryFree (p k : Bytes) : Prop :=
  ∀ r b m j, b ≠ 255 → p = r ++ b :: List.replicate m 255 →
    k = r ++ (b + 1) :: List.replicate j 0 → m ≤ j

theorem toNat_add_one (hb : b ≠ 255) : (b + 1).toNat = b.toNat + 1 := by
  have hlt := b.toNat_lt
  have hne : b.toNat ≠ 255 := fun h => hb (UInt8.toNat_inj.mp h)
  rw [UInt8.toNat_add, UInt8.toNat_one, Nat.mod_eq_of_lt (by omega)]

/-- **Adding one gives the end of what starts with `p`**, for a key that does not end
inside the carry. By induction on the bytes in front of the carry. -/
theorem lt_increment_iff {k : Bytes} (hq : increment p = some q) (hfree : CarryFree p k) :
    k < q ↔ k < p ∨ p <+: k := by
  obtain ⟨r, b, m, hb, rfl, rfl⟩ := increment_eq_some hq
  have hk : ∀ j, k = r ++ (b + 1) :: List.replicate j 0 → m ≤ j := fun j h => hfree r b m j hb rfl h
  clear hq hfree
  induction r generalizing k with
  | nil =>
    rw [nil_append, nil_append]
    cases k with
    | nil => simp
    | cons c k =>
      rw [cons_lt_cons_iff, cons_lt_cons_iff, cons_prefix_cons]
      have hsucc := toNat_add_one hb
      rcases Nat.lt_trichotomy c.toNat b.toNat with hc | hc | hc
      · have h1 : c < b := UInt8.lt_iff_toNat_lt.mpr hc
        have h2 : c < b + 1 := UInt8.lt_iff_toNat_lt.mpr (by omega)
        exact ⟨fun _ => .inl (.inl h1), fun _ => .inl h2⟩
      · have h1 : c = b := UInt8.toNat_inj.mp hc
        have h2 : c < b + 1 := UInt8.lt_iff_toNat_lt.mpr (by omega)
        refine ⟨fun _ => ?_, fun _ => .inl h2⟩
        rcases lt_or_isPrefix_replicate m k with h | h
        · exact .inl (.inr ⟨h1, h⟩)
        · exact .inr ⟨h1.symm, h⟩
      · have hne : c ≠ b := fun h => by rw [h] at hc; omega
        have hnlt : ¬ c < b := by rw [UInt8.lt_iff_toNat_lt]; omega
        constructor
        · rintro (h | ⟨rfl, h⟩)
          · rw [UInt8.lt_iff_toNat_lt] at h
            omega
          · -- the key is a shorter string of zeros behind the carry
            obtain ⟨j, hj, rfl⟩ := eq_replicate_of_lt_replicate h
            have := hk j rfl
            omega
        · rintro ((h | ⟨h, _⟩) | ⟨h, _⟩)
          · exact absurd h hnlt
          · exact absurd h hne
          · exact absurd h.symm hne
  | cons a r ih =>
    cases k with
    | nil => simp
    | cons c k =>
      rw [cons_append, cons_append, cons_lt_cons_iff, cons_lt_cons_iff,
        cons_prefix_cons]
      by_cases hc : c = a
      · subst hc
        have ih := @ih k fun j hj => hk j (by rw [hj]; rfl)
        simp only [lt_self_iff_false, true_and, false_or, ih]
      · simp [hc, Ne.symm hc]

/-! ## No key ends inside the carry -/

theorem getLast?_escapeTerminated (s : Bytes) : (escapeTerminated s).getLast? = some 0 := by
  induction s with
  | nil => rfl
  | cons b s ih => rw [escapeTerminated, getLast?_append, ih, Option.some_or]

/-- An escaped string ends in a zero byte, so that a carry does not go past its end. -/
theorem escapeTerminated_eq_append
    (h : escapeTerminated s = r ++ b :: List.replicate m 255) : b = 0 ∧ m = 0 := by
  have hlast := getLast?_escapeTerminated s
  rw [h, getLast?_append, getLast?_cons] at hlast
  cases m with
  | zero => exact ⟨by simpa using hlast, rfl⟩
  | succ m => simp [getLast?_replicate] at hlast

/-- No escaped string continues as `00 01` where another one ends. -/
theorem unescapeTerminated_carried : ∀ {r : Bytes} (z : Bytes) (pos : Nat),
    escapeTerminated s = r ++ [0] → ∃ e, unescapeTerminated pos (r ++ 1 :: z) = .error e := by
  induction s with
  | nil =>
    intro r z pos h
    obtain rfl : r = [0] := by
      have : [0] ++ [0] = r ++ [0] := h
      exact (append_cancel_right this).symm
    exact ⟨_, rfl⟩
  | cons b s ih =>
    intro r z pos h
    rw [escapeTerminated] at h
    -- the string goes on behind the escaped byte
    obtain ⟨r', hr'⟩ := getLast?_eq_some_iff.mp (getLast?_escapeTerminated s)
    rw [hr', ← append_assoc] at h
    obtain rfl := (append_cancel_right h).symm
    by_cases hb : b = 0
    · subst hb
      obtain ⟨e, he⟩ := ih z (pos + 2) hr'
      refine ⟨e, ?_⟩
      simp only [if_true, cons_append, nil_append, unescapeTerminated,
        show (255 : UInt8) ≠ 0 by decide, if_false]
      rw [he]
      rfl
    · obtain ⟨e, he⟩ := ih z (pos + 1) hr'
      refine ⟨e, ?_⟩
      rw [if_neg hb, append_assoc, singleton_append, unescapeTerminated_of_ne_zero hb, he]
      rfl

/-- Values of one type either have one width or are escaped strings. -/
theorem length_eq_or_escaped (ht : v.valueType = w.valueType) (hx : encodeKeyValue v = .ok x)
    (hy : encodeKeyValue w = .ok y) :
    x.length = y.length ∨ ∃ s t, x = escapeTerminated s ∧ y = escapeTerminated t := by
  obtain ⟨-, -, rfl⟩ := encodeKeyValue_eq_ok.mp hx
  obtain ⟨-, -, rfl⟩ := encodeKeyValue_eq_ok.mp hy
  cases v <;> cases w <;> simp only [RelationalValue.valueType, reduceCtorEq] at ht
  case text.text s t => exact .inr ⟨_, _, rfl, rfl⟩
  case blob.blob s t => exact .inr ⟨_, _, rfl, rfl⟩
  all_goals exact .inl (by simp [keyBytes])

/-- A codeword whose bytes are carried over, or that is all `FF`s, is no longer than the other. -/
structure CarrySafe (x y : Bytes) : Prop where
  carried : ∀ r b m z, x = r ++ b :: List.replicate m 255 → y = r ++ (b + 1) :: z →
    x.length ≤ y.length
  full : ∀ m, x = List.replicate m 255 → x.length ≤ y.length

theorem carrySafe_encodeKeyValue (ht : v.valueType = w.valueType) (hx : encodeKeyValue v = .ok x)
    (hy : encodeKeyValue w = .ok y) : CarrySafe x y := by
  rcases length_eq_or_escaped ht hx hy with h | ⟨s, t, rfl, rfl⟩
  · exact ⟨fun _ _ _ _ _ _ => h.le, fun _ _ => h.le⟩
  · constructor
    · -- the carry would have to stop at the terminator, and leave something that is not one
      intro r b m z hxr hyr
      obtain ⟨rfl, rfl⟩ := escapeTerminated_eq_append hxr
      obtain ⟨e, he⟩ := unescapeTerminated_carried z 0 hxr
      have hdec := @unescapeTerminated_append [] t 0
      rw [append_nil, hyr, show (0 : UInt8) + 1 = 1 by decide, he] at hdec
      cases hdec
    · intro m hff
      have hlast := getLast?_escapeTerminated s
      rw [hff, getLast?_replicate] at hlast
      split_ifs at hlast
      exact absurd (Option.some.inj hlast) (by decide)

theorem ne_add_one (b : UInt8) : b ≠ b + 1 := by
  intro h
  have := congrArg UInt8.toNat h
  rw [UInt8.toNat_add, UInt8.toNat_one] at this
  omega

/-- Strings that differ behind a common beginning do so behind any part of it. -/
theorem common_beginning {v t : Bytes} {c : UInt8} (hbc : b ≠ c) (hu : x ++ u = r ++ b :: s)
    (hv : x ++ v = r ++ c :: t) : ∃ r', r = x ++ r' ∧ u = r' ++ b :: s ∧ v = r' ++ c :: t := by
  rcases append_eq_append_iff.mp hu with ⟨r', rfl, hu'⟩ | ⟨a, rfl, ha⟩
  · refine ⟨r', rfl, hu', ?_⟩
    rw [append_assoc] at hv
    exact append_cancel_left hv
  · cases a with
    | nil =>
      rw [append_nil] at hv ⊢
      exact ⟨[], (append_nil r).symm, ha.symm, append_cancel_left hv⟩
    | cons a as =>
      rw [cons_append, List.cons.injEq] at ha
      rw [append_assoc] at hv
      have := (List.cons.inj (append_cancel_left hv)).1
      exact absurd (ha.1.trans this) hbc

/-- Different codewords differ within both. -/
theorem diverge_within {o : Ordering} {v t : Bytes} {c : UInt8} (h : Separates o x y) (ho : o ≠ .eq)
    (hu : x ++ u = r ++ b :: s) (hv : y ++ v = r ++ c :: t) :
    ∃ s' t', x = r ++ b :: s' ∧ s = s' ++ u ∧ y = r ++ c :: t' := by
  -- a codeword that ends before the difference would be the beginning of the other string
  have hin : ∀ {o' : Ordering} {p q w w' r' : Bytes} {d : UInt8}, Separates o' p q → o' ≠ .eq →
      p ++ w = r ++ d :: w' → (∃ w'', q ++ w'' = r ++ r') → ∃ p', p = r ++ d :: p' ∧
        w' = p' ++ w := by
    intro o' p q w w' r' d hsep ho' hp hq
    rcases append_eq_append_iff.mp hp with ⟨a, rfl, -⟩ | ⟨a, rfl, ha⟩
    · obtain ⟨w'', hq⟩ := hq
      rw [append_assoc] at hq
      exact absurd (hsep.eq_of_append hq.symm).1 ho'
    · cases a with
      | nil =>
        obtain ⟨w'', hq⟩ := hq
        rw [append_nil] at hsep
        exact absurd (hsep.eq_of_append hq.symm).1 ho'
      | cons a as =>
        rw [cons_append, List.cons.injEq] at ha
        exact ⟨as, by rw [ha.1], ha.2⟩
  obtain ⟨s', hx, hs⟩ := hin h ho hu ⟨v, hv⟩
  obtain ⟨t', hy, -⟩ := hin h.swap (by cases o <;> simp at ho ⊢) hv ⟨u, hu⟩
  exact ⟨s', t', hx, hs, hy⟩

section

variable {ε α : Type} {code : α → Except ε Bytes} {R : α → α → Prop} {as bs : List α}
  (hsafe : ∀ a b x y, R a b → code a = .ok x → code b = .ok y → CarrySafe x y)

include hsafe

theorem length_le_of_all_ff (h : List.Forall₂ R as bs) : ∀ {x y : Bytes} {m : Nat},
    concatM code as = .ok x → concatM code bs = .ok y → x = List.replicate m 255 →
    x.length ≤ y.length := by
  induction h with
  | nil =>
    intro x y m ha _ _
    rw [← Except.ok.inj ha]
    exact Nat.zero_le _
  | cons hab _ ih =>
    intro x y m ha hb hff
    obtain ⟨xa, xas, hxa, hxas, rfl⟩ := concatM_cons_eq_ok.mp ha
    obtain ⟨yb, ybs, hyb, hybs, rfl⟩ := concatM_cons_eq_ok.mp hb
    obtain ⟨-, hhead, htail⟩ := append_eq_replicate_iff.mp hff
    rw [length_append, length_append]
    exact Nat.add_le_add ((hsafe _ _ _ _ hab hxa hyb).full _ hhead) (ih hxas hybs htail)

/-- A key does not end before a bound that its columns are carried over from: the columns
from the carry on are no longer. By induction on the columns in front of it. -/
theorem length_le_of_carried (cmp : α → α → Ordering)
    (hsep : ∀ a b x y, R a b → code a = .ok x → code b = .ok y → Separates (cmp a b) x y)
    (h : List.Forall₂ R as bs) : ∀ {x y u r z : Bytes} {c : UInt8} {m : Nat},
    concatM code as = .ok x → concatM code bs = .ok y → x = r ++ c :: List.replicate m 255 →
    y ++ u = r ++ (c + 1) :: z → x.length ≤ y.length := by
  induction h with
  | nil =>
    intro x y u r z c m ha _ hx _
    rw [← Except.ok.inj ha] at hx
    simp at hx
  | @cons a b as bs hab hrest ih =>
    intro x y u r z c m ha hb hx hy
    obtain ⟨xa, xas, hxa, hxas, rfl⟩ := concatM_cons_eq_ok.mp ha
    obtain ⟨yb, ybs, hyb, hybs, rfl⟩ := concatM_cons_eq_ok.mp hb
    rw [append_assoc] at hy
    rw [length_append, length_append]
    have hone := hsep _ _ _ _ hab hxa hyb
    by_cases htie : cmp a b = .eq
    · -- the first columns agree
      obtain rfl := hone.eq_iff.mp htie
      obtain ⟨r', -, hx', hy'⟩ := common_beginning (ne_add_one c) hx hy
      exact Nat.add_le_add_left (ih hxas hybs hx' hy') _
    · obtain ⟨s', t', hxs, hs, hys⟩ := diverge_within hone htie hx hy
      obtain ⟨-, hs', hxas'⟩ := append_eq_replicate_iff.mp hs.symm
      rw [hs'] at hxs
      exact Nat.add_le_add ((hsafe _ _ _ _ hab hxa hyb).carried _ _ _ _ hxs hys)
        (length_le_of_all_ff hsafe hrest hxas hybs hxas')

end

theorem length_le_of_carried_composite {as bs : List RelationalValue} {z : Bytes}
    (ht : as.map RelationalValue.valueType = bs.map RelationalValue.valueType)
    (ha : encodeCompositeKey as = .ok x) (hb : encodeCompositeKey bs = .ok y)
    (hx : x = r ++ b :: List.replicate m 255) (hy : y ++ u = r ++ (b + 1) :: z) :
    x.length ≤ y.length := by
  rw [encodeCompositeKey_eq] at ha hb
  refine length_le_of_carried ?_ RelationalValue.cmp ?_ (forall₂_valueType.mpr ht) ha hb hx hy
  · exact fun _ _ _ _ => carrySafe_encodeKeyValue
  · exact fun _ _ _ _ => separates_encodeKeyValue

theorem head_encodeIndexedColumn {value : Option RelationalValue}
    (hx : encodeIndexedColumn value = .ok x) : ∃ tag rest, x = tag :: rest ∧ tag ≠ 255 := by
  cases value with
  | none =>
    cases hx
    exact ⟨_, _, rfl, by decide⟩
  | some v =>
    obtain ⟨bytes, -, hx⟩ := bind_eq_ok.mp hx
    cases hx
    exact ⟨_, _, rfl, by decide⟩

theorem column_ne_all_ff {value : Option RelationalValue} (hx : encodeIndexedColumn value = .ok x) :
    x ++ u ≠ List.replicate m 255 := by
  intro hff
  obtain ⟨tag, rest, rfl, htag⟩ := head_encodeIndexedColumn hx
  have hmem : tag ∈ List.replicate m (255 : UInt8) := hff ▸ mem_cons_self
  exact absurd (eq_of_mem_replicate hmem) htag

/-- Only no columns at all encode to `FF`s. -/
theorem eq_nil_of_all_ff_indexed {values : List (Option RelationalValue)}
    (hx : encodeIndexedColumns values = .ok x) (hff : x = List.replicate m 255) : values = [] := by
  cases values with
  | nil => rfl
  | cons value values =>
    rw [encodeIndexedColumns_eq] at hx
    obtain ⟨head, tail, hhead, -, rfl⟩ := concatM_cons_eq_ok.mp hx
    exact absurd hff (column_ne_all_ff hhead)

theorem carrySafe_encodeIndexedColumn {v w : Option RelationalValue}
    (ht : ∀ a ∈ v, ∀ c ∈ w, a.valueType = c.valueType) (hx : encodeIndexedColumn v = .ok x)
    (hy : encodeIndexedColumn w = .ok y) : CarrySafe x y where
  full m hff := absurd ((append_nil x).trans hff) (column_ne_all_ff hx)
  carried := by
    intro r b m z hxr hyr
    cases v with
    | none =>
      cases hx
      rw [hyr]
      simp only [length_append, length_cons, length_nil]
      omega
    | some a =>
      obtain ⟨xa, hxa, hx⟩ := bind_eq_ok.mp hx
      cases hx
      cases w with
      | none =>
        -- the tag of a value is above that of `NULL`
        cases hy
        cases r with
        | nil =>
          have h2 := (List.cons.inj hyr).1
          rw [← (List.cons.inj hxr).1] at h2
          exact absurd h2 (by decide)
        | cons c r =>
          exact absurd ((List.cons.inj hxr).1.trans (List.cons.inj hyr).1.symm) (by decide)
      | some c =>
        obtain ⟨yc, hyc, hy⟩ := bind_eq_ok.mp hy
        cases hy
        cases r with
        | nil =>
          exact absurd ((List.cons.inj hxr).1.symm.trans (List.cons.inj hyr).1) (ne_add_one b)
        | cons d r =>
          exact Nat.succ_le_succ
            ((carrySafe_encodeKeyValue (ht a rfl c rfl) hxa hyc).carried r b m z
            (List.cons.inj hxr).2 (List.cons.inj hyr).2)

theorem length_le_of_carried_indexed {as bs : List (Option RelationalValue)} {z : Bytes}
    (ht : SameTypes as bs) (ha : encodeIndexedColumns as = .ok x)
    (hb : encodeIndexedColumns bs = .ok y) (hx : x = r ++ b :: List.replicate m 255)
    (hy : y ++ u = r ++ (b + 1) :: z) : x.length ≤ y.length := by
  rw [encodeIndexedColumns_eq] at ha hb
  refine length_le_of_carried ?_ cmpOption ?_ ht ha hb hx hy
  · exact fun _ _ _ _ => carrySafe_encodeIndexedColumn
  · exact fun _ _ _ _ => separates_encodeIndexedColumn

theorem carryFree_of_length_le
    (h : ∀ {r z b m}, x = r ++ b :: List.replicate m 255 → y ++ u = r ++ (b + 1) :: z →
      x.length ≤ y.length) : CarryFree x (y ++ u) := by
  intro r b m j _ hx hk
  have hle := h hx hk
  have hlen := congrArg List.length hk
  rw [hx] at hle
  simp only [length_append, length_cons, length_replicate] at hle hlen
  omega

end RubixDb.Proof
