import Mathlib
import RubixDb.Lib.FallibleLists

/-!
# Order-preserving byte codes

Keys are compared byte by byte, so a code for keys has to put its bytes in the order of
what they stand for, and has to do so with other codes behind it. `Separates o x y` says
just that of two codewords: whatever follows, `x` and `y` compare as `o`, and only when
`o` is a tie does the comparison go on behind them. It composes, which is how a composite
key is dealt with one component at a time, and it has both readings that matter: the
order of keys, and that no codeword is the beginning of another.

The components: integers with the most significant byte first, byte strings of any length
with an escape and a terminator, and single tags.
-/

namespace Lib

open List

open Std

/-! ## Codewords -/

variable {o : Ordering} {x y v : List UInt8} {b : UInt8}

/-- With anything behind them, the codewords compare as `o`, and what is behind them
decides a tie. -/
def Separates (o : Ordering) (x y : List UInt8) : Prop :=
  ∀ u v, compare (x ++ u) (y ++ v) = o.then (compare u v)

theorem separates_nil : Separates .eq [] [] := fun _ _ => rfl

/-- One codeword behind another. -/
theorem Separates.append {o' : Ordering} {x' y' : List UInt8} (h : Separates o x y)
    (h' : Separates o' x' y') : Separates (o.then o') (x ++ x') (y ++ y') := by
  intro u v
  rw [append_assoc, append_assoc, h, h', Ordering.then_assoc]

theorem compare_byte (a b : UInt8) : compare a b = compare a.toNat b.toNat := by
  show compareOfLessAndEq a b = compareOfLessAndEq a.toNat b.toNat
  unfold compareOfLessAndEq
  simp [UInt8.lt_iff_toNat_lt, UInt8.toNat_inj]

theorem separates_byte (a b : UInt8) : Separates (compare a b) [a] [b] := by
  intro u v
  rw [List.singleton_append, List.singleton_append, List.compare_cons_cons]

theorem separates_self (x : List UInt8) : Separates .eq x x := by
  induction x with
  | nil => exact separates_nil
  | cons b x ih =>
    have h := (separates_byte b b).append ih
    rwa [compare_self] at h

/-- A code is read off without looking past its end. -/
theorem Separates.eq_of_append {u : List UInt8} (h : Separates o x y)
    (heq : x ++ u = y ++ v) : o = .eq ∧ u = v := by
  have hcmp := h u v
  rw [heq, compare_self] at hcmp
  have hboth := Ordering.then_eq_eq.mp hcmp.symm
  exact ⟨hboth.1, LawfulEqOrd.eq_of_compare hboth.2⟩

theorem Separates.swap (h : Separates o x y) : Separates o.swap y x := by
  have hcmp : ∀ a b : List UInt8, compare a b = (compare b a).swap := fun _ _ => OrientedOrd.eq_swap
  intro u v
  rw [hcmp, h v u, Ordering.swap_then, ← hcmp]

/-- A tie is an equal codeword. -/
theorem Separates.eq_iff (h : Separates o x y) : o = .eq ↔ x = y := by
  constructor
  · intro ho
    have hcmp := h [] []
    rw [ho, append_nil, append_nil] at hcmp
    exact LawfulEqOrd.eq_of_compare hcmp
  · intro hxy
    exact (h.eq_of_append (by rw [hxy] : x ++ [] = y ++ [])).1

/-- A codeword in front of a string only meets its own. -/
theorem Separates.isPrefix_iff (h : Separates o x y) : x <+: y ++ v ↔ o = .eq := by
  constructor
  · rintro ⟨u, hu⟩
    exact (h.eq_of_append hu).1
  · intro ho
    rw [h.eq_iff.mp ho]
    exact prefix_append y v

/-! ## Integers, most significant byte first -/

/-- `n` in `width` bytes, most significant first. -/
def beBytes : Nat → Nat → List UInt8
  | 0, _ => []
  | width + 1, n => UInt8.ofNat (n / 256 ^ width % 256) :: beBytes width n

@[simp] theorem length_beBytes (width n : Nat) : (beBytes width n).length = width := by
  induction width with
  | zero => rfl
  | succ width ih => simp [beBytes, ih]

/-- The number a big-endian byte string denotes. -/
def beNat : List UInt8 → Nat
  | [] => 0
  | b :: bs => b.toNat * 256 ^ bs.length + beNat bs

/-- Numbers compare by their leading digit first. -/
theorem compare_digits {p a b c d : Nat} (hb : b < p) (hd : d < p) :
    compare (p * a + b) (p * c + d) = (compare a c).then (compare b d) := by
  rcases Nat.lt_trichotomy a c with h | h | h
  · have hmul : p * (a + 1) ≤ p * c := Nat.mul_le_mul_left p h
    rw [Nat.mul_add] at hmul
    rw [Nat.compare_eq_lt.mpr h, Nat.compare_eq_lt.mpr (by omega)]
    rfl
  · subst h
    rw [compare_self, Ordering.eq_then]
    rcases Nat.lt_trichotomy b d with h' | h' | h'
    · rw [Nat.compare_eq_lt.mpr h', Nat.compare_eq_lt.mpr (by omega)]
    · subst h'
      rw [compare_self, compare_self]
    · rw [Nat.compare_eq_gt.mpr h', Nat.compare_eq_gt.mpr (by omega)]
  · have hmul : p * (c + 1) ≤ p * a := Nat.mul_le_mul_left p h
    rw [Nat.mul_add] at hmul
    rw [Nat.compare_eq_gt.mpr h, Nat.compare_eq_gt.mpr (by omega)]
    rfl

theorem compare_ofNat_mod (n m : Nat) :
    compare (UInt8.ofNat (n % 256)) (UInt8.ofNat (m % 256)) = compare (n % 256) (m % 256) := by
  have hbyte : ∀ k, (UInt8.ofNat (k % 256)).toNat = k % 256 := by
    simp [UInt8.toNat_ofNat']
  rw [compare_byte, hbyte, hbyte]

/-- Big-endian integers compare as numbers, by induction on the width. -/
theorem separates_beBytes (width n m : Nat) :
    Separates (compare (n % 256 ^ width) (m % 256 ^ width)) (beBytes width n)
      (beBytes width m) := by
  induction width with
  | zero =>
    rw [Nat.pow_zero, Nat.mod_one, Nat.mod_one]
    exact separates_nil
  | succ width ih =>
    have hpos : 0 < 256 ^ width := Nat.pow_pos (by decide)
    have hdigits : ∀ k, k % 256 ^ (width + 1) =
        256 ^ width * (k / 256 ^ width % 256) + k % 256 ^ width := by
      intro k
      rw [Nat.pow_succ, Nat.mod_mul, Nat.add_comm]
    have h := (separates_byte (UInt8.ofNat (n / 256 ^ width % 256))
      (UInt8.ofNat (m / 256 ^ width % 256))).append ih
    rw [hdigits, hdigits, compare_digits (Nat.mod_lt _ hpos) (Nat.mod_lt _ hpos)]
    rw [compare_ofNat_mod] at h
    exact h

theorem separates_beBytes_of_lt {width n m : Nat} (hn : n < 256 ^ width) (hm : m < 256 ^ width) :
    Separates (compare n m) (beBytes width n) (beBytes width m) := by
  have h := separates_beBytes width n m
  rwa [Nat.mod_eq_of_lt hn, Nat.mod_eq_of_lt hm] at h

/-! ## Byte strings with a terminator -/

/-- A zero byte becomes `00 FF`, and `00 00` ends the string. -/
def escapeTerminated : List UInt8 → List UInt8
  | [] => [0, 0]
  | b :: bs => (if b = 0 then [0, 255] else [b]) ++ escapeTerminated bs

theorem compare_zero_of_ne (hb : b ≠ 0) : compare 0 b = .lt := by
  have : b.toNat ≠ 0 := fun h => hb (UInt8.toNat_inj.mp h)
  rw [compare_byte, UInt8.toNat_zero]
  exact Nat.compare_eq_lt.mpr (by omega)

theorem compare_of_ne_zero (hb : b ≠ 0) : compare b 0 = .gt := by
  have : b.toNat ≠ 0 := fun h => hb (UInt8.toNat_inj.mp h)
  rw [compare_byte, UInt8.toNat_zero]
  exact Nat.compare_eq_gt.mpr (by omega)

/-- Escaped strings compare as the strings, by induction on both: the terminator is below
every continuation, an escaped zero included. -/
theorem separates_escapeTerminated (x y : List UInt8) :
    Separates (compare x y) (escapeTerminated x) (escapeTerminated y) := by
  induction x generalizing y with
  | nil =>
    cases y with
    | nil => exact separates_self _
    | cons b y =>
      intro u v
      rw [escapeTerminated, escapeTerminated]
      by_cases hb : b = 0
      · rw [if_pos hb]
        rfl
      · rw [if_neg hb]
        simp [compare_zero_of_ne hb]
  | cons a x ih =>
    cases y with
    | nil =>
      intro u v
      rw [escapeTerminated, escapeTerminated]
      by_cases ha : a = 0
      · rw [if_pos ha]
        rfl
      · rw [if_neg ha]
        simp [compare_of_ne_zero ha]
    | cons b y =>
      rw [List.compare_cons_cons, escapeTerminated, escapeTerminated]
      by_cases hab : a = b
      · subst hab
        rw [compare_self]
        exact (separates_self _).append (ih y)
      · -- different first bytes decide; the escape keeps a zero byte lowest
        have hne : compare a b ≠ .eq := fun h => hab (LawfulEqOrd.eq_of_compare h)
        intro u v
        by_cases ha : a = 0
        · have hb : b ≠ 0 := fun hb => hab (ha.trans hb.symm)
          rw [if_neg hb, ha]
          simp [compare_zero_of_ne hb]
        · by_cases hb : b = 0
          · rw [if_neg ha, hb]
            simp [compare_of_ne_zero ha]
          · rw [if_neg ha, if_neg hb]
            cases hcmp : compare a b with
            | lt => simp [hcmp]
            | eq => exact absurd hcmp hne
            | gt => simp [hcmp]

/-! ## Tags -/

/-- Different tags decide whatever stands behind them. -/
theorem separates_tags {a : UInt8} (h : a ≠ b) (x y : List UInt8) :
    Separates (compare a b) (a :: x) (b :: y) := by
  intro u v
  rw [List.cons_append, List.cons_append, List.compare_cons_cons]
  cases hcmp : compare a b with
  | lt => rfl
  | eq => exact absurd (LawfulEqOrd.eq_of_compare hcmp) h
  | gt => rfl

/-- A common tag decides nothing. -/
theorem Separates.cons (h : Separates o x y) (a : UInt8) : Separates o (a :: x) (a :: y) := by
  have htag := (separates_self [a]).append h
  rwa [Ordering.eq_then] at htag

/-! ## One codeword for each element of a list -/

section

variable {ε α : Type} {code : α → Except ε (List UInt8)} {R : α → α → Prop}
  {cmp : α → α → Ordering} {as bs : List α}

theorem separates_concatM
    (hcode : ∀ a b x y, R a b → code a = .ok x → code b = .ok y → Separates (cmp a b) x y)
    (h : List.Forall₂ R as bs) : ∀ {x y}, concatM code as = .ok x → concatM code bs = .ok y →
      Separates (List.compareLex cmp as bs) x y := by
  induction h with
  | nil =>
    intro x y ha hb
    cases ha
    cases hb
    exact separates_nil
  | cons hab _ ih =>
    intro x y ha hb
    obtain ⟨xa, xas, hxa, hxas, rfl⟩ := concatM_cons_eq_ok.mp ha
    obtain ⟨yb, ybs, hyb, hybs, rfl⟩ := concatM_cons_eq_ok.mp hb
    rw [List.compareLex_cons_cons]
    exact (hcode _ _ _ _ hab hxa hyb).append (ih hxas hybs)

/-- A list's code begins with that of another list if its leading elements have that code. -/
theorem isPrefix_concatM_iff (cmp : α → α → Ordering)
    (hcode : ∀ a b x y, R a b → code a = .ok x → code b = .ok y → Separates (cmp a b) x y) {n : Nat}
    (h : List.Forall₂ R as (bs.take n)) (hx : concatM code as = .ok x)
    (hy : concatM code bs = .ok y) : x <+: y ↔ concatM code (bs.take n) = .ok x := by
  rw [← take_append_drop n bs] at hy
  obtain ⟨z, rest, hz, -, rfl⟩ := concatM_append_eq_ok hy
  have hsep := separates_concatM hcode h hx hz
  rw [hsep.isPrefix_iff, hsep.eq_iff, hz, Except.ok.injEq, eq_comm]

end

end Lib
