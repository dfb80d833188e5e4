import RubixDb.Lib.FallibleLists
import RubixDb.Sql.Window

/-!
# The buckets of NTILE

Bucket `i + 1` is the run of positions from `bucketStart i` to `bucketStart (i + 1)`
(`ntileBucket_spec`), so the buckets come in order, and a bucket's size is the distance of
the two.
-/

namespace RubixDb.Proof

open Lib List

/-- The position of the first row behind `i` buckets. -/
def bucketStart (n k i : Nat) : Nat := i * (n / k) + min i (n % k)

variable {n k : Nat}

theorem bucketStart_mono {i j : Nat} (h : i ≤ j) : bucketStart n k i ≤ bucketStart n k j := by
  have := Nat.mul_le_mul_right (n / k) h
  unfold bucketStart
  omega

theorem bucketStart_end (hk : 1 ≤ k) : bucketStart n k k = n := by
  have hlt := Nat.mod_lt n hk
  have := Nat.div_add_mod n k
  rw [bucketStart, Nat.min_eq_right (Nat.le_of_lt hlt)]
  exact this

/-- The row stands in the run of its bucket, and neither divisor is zero. -/
theorem ntileBucket_spec {p : Nat} (hp : p < n) :
    ∃ i, ntileBucket (n / k) (n % k) p = .ok (i + 1) ∧
      bucketStart n k i ≤ p ∧ p < bucketStart n k (i + 1) := by
  have hn := Nat.div_add_mod n k
  unfold ntileBucket bucketStart
  generalize n / k = base at hn ⊢
  generalize n % k = rem at hn ⊢
  have hbig := Nat.mul_add_one rem base
  by_cases h : p < rem * (base + 1)
  · -- one of the larger buckets
    have hi : p / (base + 1) < rem := (Nat.div_lt_iff_lt_mul (Nat.succ_pos _)).mpr h
    have hdiv := Nat.div_add_mod p (base + 1)
    have hmod := Nat.mod_lt p (Nat.add_one_pos base)
    refine ⟨p / (base + 1), ?_, ?_⟩
    · rw [if_pos h, checkedDiv_eq (Nat.succ_ne_zero _)]
      rfl
    · generalize p / (base + 1) = i at hi hdiv ⊢
      have hprod : (base + 1) * i = i * base + i := by ring
      rw [Nat.add_one_mul]
      omega
  · -- with empty smaller buckets the larger ones hold every row
    have hbase : base ≠ 0 := by
      rintro rfl
      omega
    have hdiv := Nat.div_add_mod (p - rem * (base + 1)) base
    have hmod := Nat.mod_lt (p - rem * (base + 1)) (Nat.pos_of_ne_zero hbase)
    refine ⟨rem + (p - rem * (base + 1)) / base, ?_, ?_⟩
    · rw [if_neg h, checkedSub_eq (Nat.le_of_not_lt h), ok_bind, checkedDiv_eq hbase]
      rfl
    · generalize (p - rem * (base + 1)) / base = q at hdiv ⊢
      rw [Nat.mul_comm] at hdiv
      rw [Nat.add_one_mul, Nat.add_mul, Nat.min_eq_right (by omega), Nat.min_eq_right (by omega)]
      omega

theorem countP_range (a b : Nat) : ∀ n,
    (List.range n).countP (fun p => a ≤ p ∧ p < b) = min b n - min a n := by
  intro n
  induction n with
  | zero => simp
  | succ n ih =>
    rw [range_succ, countP_append, ih, countP_singleton]
    simp only [decide_eq_true_eq]
    split <;> omega

/-- **Every partition is cut into even buckets**: no division by zero and no negative
difference, the numbers never fall, they are those from 1 to `min n k`, and the first
`n % k` buckets hold one row more than the others. -/
theorem ntile_even (hk : 1 ≤ k) :
    ∃ buckets, ntile n k = .ok buckets ∧ buckets.length = n ∧ buckets.Pairwise (· ≤ ·) ∧
      (∀ i, i ∈ buckets ↔ 1 ≤ i ∧ i ≤ min n k) ∧
      ∀ i, 1 ≤ i → i ≤ k → buckets.count i = n / k + if i ≤ n % k then 1 else 0 := by
  choose! f hf using fun p (hp : p < n) => ntileBucket_spec hp
  have hend : bucketStart n k k = n := bucketStart_end hk
  -- a row is in the bucket whose bounds enclose it
  have hiff : ∀ p < n, ∀ i, f p = i ↔ bucketStart n k i ≤ p ∧ p < bucketStart n k (i + 1) := by
    intro p hp i
    obtain ⟨-, hlo, hhi⟩ := hf p hp
    constructor
    · rintro rfl
      exact ⟨hlo, hhi⟩
    · rintro ⟨hlo', hhi'⟩
      rcases Nat.lt_trichotomy (f p) i with h | h | h
      · have := bucketStart_mono (n := n) (k := k) (show f p + 1 ≤ i from h)
        omega
      · exact h
      · have := bucketStart_mono (n := n) (k := k) (show i + 1 ≤ f p from h)
        omega
  -- so a bucket has as many rows as its bounds are apart
  have hcount : ∀ i, 1 ≤ i → i ≤ k →
      ((List.range n).map (f · + 1)).count i = n / k + if i ≤ n % k then 1 else 0 := by
    intro i hi hik
    obtain ⟨i, rfl⟩ := Nat.exists_eq_add_of_le' hi
    have hle := bucketStart_mono (n := n) (k := k) hik
    rw [count_eq_countP, countP_map, countP_congr (q := fun p =>
      bucketStart n k i ≤ p ∧ p < bucketStart n k (i + 1)), countP_range]
    · rw [hend] at hle
      unfold bucketStart at hle ⊢
      rw [Nat.add_one_mul] at hle ⊢
      generalize n / k = base at hle ⊢
      split <;> omega
    · intro p hp
      simpa using hiff p (mem_range.mp hp) i
  refine ⟨_, ?_, by simp, ?_, ?_, hcount⟩
  · rw [ntile, checkedDiv_eq (by omega), ok_bind, checkedRem_eq (by omega), ok_bind]
    exact mapM_ok fun p hp => (hf p (mem_range.mp hp)).1
  · rw [pairwise_map]
    refine pairwise_lt_range.imp_of_mem fun {p q} hp hq hpq => ?_
    by_contra hlt
    have := bucketStart_mono (n := n) (k := k) (show f q + 1 ≤ f p by omega)
    have := hf p (mem_range.mp hp)
    have := hf q (mem_range.mp hq)
    omega
  · intro i
    by_cases hik : 1 ≤ i ∧ i ≤ k
    · rw [← count_pos_iff, hcount i hik.1 hik.2]
      rcases Nat.lt_or_ge n k with h | h
      · rw [Nat.div_eq_of_lt h, Nat.mod_eq_of_lt h]
        split <;> omega
      · have := Nat.div_pos h hk
        omega
    · refine iff_of_false ?_ (by omega)
      intro hi
      obtain ⟨p, hp, rfl⟩ := mem_map.mp hi
      have := hf p (mem_range.mp hp)
      have := mem_range.mp hp
      have := bucketStart_mono (n := n) (k := k) (show k ≤ f p by omega)
      omega

theorem ntile_of_five : ∃ buckets, ntile 5 3 = .ok buckets ∧ buckets.length = 5 ∧
    buckets.Pairwise (· ≤ ·) ∧ (∀ i, i ∈ buckets ↔ 1 ≤ i ∧ i ≤ min 5 3) ∧
      ∀ i, 1 ≤ i → i ≤ 3 → buckets.count i = 5 / 3 + if i ≤ 5 % 3 then 1 else 0 :=
  ntile_even (by decide)

end RubixDb.Proof
