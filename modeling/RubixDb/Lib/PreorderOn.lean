import Mathlib.Data.List.Sort
import Mathlib.Data.Set.Basic
import Mathlib.Order.Compare

/-!
# Comparators that are a total preorder on a set

What a sort needs of its comparator on the values it is given. `PreorderOn.then` composes
two of them lexicographically.
-/

namespace Lib

variable {α β : Type}

structure PreorderOn (cmp : α → α → Ordering) (s : Set α) : Prop where
  refl : ∀ a ∈ s, cmp a a = .eq
  swap : ∀ a ∈ s, ∀ b ∈ s, cmp b a = (cmp a b).swap
  trans : ∀ a ∈ s, ∀ b ∈ s, ∀ c ∈ s, (cmp a b).isLE → (cmp b c).isLE → (cmp a c).isLE

namespace PreorderOn

variable {cmp : α → α → Ordering} {s : Set α} {a b c : α}

section

variable (h : PreorderOn cmp s)
include h

theorem mono {t : Set α} (ht : t ⊆ s) : PreorderOn cmp t :=
  ⟨fun a ha => h.refl a (ht ha), fun a ha b hb => h.swap a (ht ha) b (ht hb),
    fun a ha b hb c hc => h.trans a (ht ha) b (ht hb) c (ht hc)⟩

theorem congr {cmp' : α → α → Ordering}
    (heq : ∀ a ∈ s, ∀ b ∈ s, cmp' a b = cmp a b) : PreorderOn cmp' s where
  refl a ha := by rw [heq a ha a ha, h.refl a ha]
  swap a ha b hb := by rw [heq b hb a ha, heq a ha b hb, h.swap a ha b hb]
  trans a ha b hb c hc := by
    rw [heq a ha b hb, heq b hb c hc, heq a ha c hc]
    exact h.trans a ha b hb c hc

theorem comap (f : β → α) : PreorderOn (fun x y => cmp (f x) (f y)) {x | f x ∈ s} :=
  ⟨fun _ hx => h.refl _ hx, fun _ hx _ hy => h.swap _ hx _ hy,
    fun _ hx _ hy _ hz => h.trans _ hx _ hy _ hz⟩

/-- The reverse order. -/
theorem reversed : PreorderOn (fun a b => (cmp a b).swap) s where
  refl a ha := by rw [h.refl a ha]; rfl
  swap a ha b hb := by rw [h.swap a ha b hb]
  trans a ha b hb c hc hab hbc := by
    rw [← h.swap a ha b hb] at hab
    rw [← h.swap b hb c hc] at hbc
    rw [← h.swap a ha c hc]
    exact h.trans c hc b hb a ha hbc hab

theorem eq_of_isLE (ha : a ∈ s) (hb : b ∈ s) (hab : (cmp a b).isLE)
    (hba : (cmp b a).isLE) : cmp a b = .eq := by
  rw [h.swap a ha b hb] at hba
  cases hcmp : cmp a b with
  | eq => rfl
  | lt => rw [hcmp] at hba; cases hba
  | gt => rw [hcmp] at hab; cases hab

theorem lt_of_lt_of_isLE (ha : a ∈ s) (hb : b ∈ s) (hc : c ∈ s)
    (hab : cmp a b = .lt) (hbc : (cmp b c).isLE) : cmp a c = .lt := by
  have hac := h.trans a ha b hb c hc (by rw [hab]; rfl) hbc
  cases hcmp : cmp a c with
  | lt => rfl
  | gt => rw [hcmp] at hac; cases hac
  | eq =>
    -- then `b` would be below `a`
    have hca : (cmp c a).isLE := by rw [h.swap a ha c hc, hcmp]; rfl
    have hba := h.trans b hb c hc a ha hbc hca
    rw [h.swap a ha b hb, hab] at hba
    cases hba

theorem lt_of_eq_of_lt (ha : a ∈ s) (hb : b ∈ s) (hc : c ∈ s)
    (hab : cmp a b = .eq) (hbc : cmp b c = .lt) : cmp a c = .lt := by
  have hcb : cmp c b = .gt := by rw [h.swap b hb c hc, hbc]; rfl
  cases hcmp : cmp a c with
  | lt => rfl
  | eq | gt =>
    have hca : (cmp c a).isLE := by rw [h.swap a ha c hc, hcmp]; rfl
    have := h.trans c hc a ha b hb hca (by rw [hab]; rfl)
    rw [hcb] at this
    cases this

theorem total (ha : a ∈ s) (hb : b ∈ s) : ((cmp a b).isLE || (cmp b a).isLE) = true := by
  rw [h.swap a ha b hb]
  cases cmp a b <;> rfl

end

/-- The order is needed of the elements only. -/
theorem mergeSort_attach (cmp : α → α → Ordering) (l : List α) :
    (l.attach.mergeSort fun a b => (cmp a.1 b.1).isLE).map Subtype.val =
      l.mergeSort fun a b => (cmp a b).isLE := by
  rw [List.map_mergeSort (s := fun a b => (cmp a b).isLE) (by intros; rfl),
    List.attach_map_subtype_val]

/-- A stable sort by the comparator sorts ... -/
theorem pairwise_mergeSort {l : List α} (h : PreorderOn cmp {a | a ∈ l}) :
    (l.mergeSort fun a b => (cmp a b).isLE).Pairwise fun a b => (cmp a b).isLE := by
  rw [← mergeSort_attach, List.pairwise_map]
  exact List.pairwise_mergeSort (fun a b c => h.trans a.1 a.2 b.1 b.2 c.1 c.2)
    (fun a b => h.total a.2 b.2) l.attach

/-- ... and keeps what is in order. -/
theorem pair_sublist_mergeSort {l : List α} (h : PreorderOn cmp {a | a ∈ l}) (hab : (cmp a b).isLE)
    (hl : [a, b].Sublist l) : [a, b].Sublist (l.mergeSort fun a b => (cmp a b).isLE) := by
  rw [← List.attach_map_subtype_val l, List.sublist_map_iff] at hl
  obtain ⟨l', hl', hpair⟩ := hl
  obtain ⟨a', b', rfl⟩ := List.length_eq_two.mp ((List.length_map _).symm.trans
    (congrArg List.length hpair.symm))
  obtain ⟨rfl, rfl⟩ : a = a'.1 ∧ b = b'.1 := by simpa using hpair
  rw [← mergeSort_attach]
  exact (List.pair_sublist_mergeSort (fun a b c => h.trans a.1 a.2 b.1 b.2 c.1 c.2)
    (fun a b => h.total a.2 b.2) hab hl').map Subtype.val

end PreorderOn

theorem isLE_then_iff {x y : Ordering} : (x.then y).isLE ↔ x = .lt ∨ (x = .eq ∧ y.isLE) := by
  cases x <;> simp [Ordering.then]

/-- **Lexicographic composition.** -/
theorem PreorderOn.then {c : α → α → Ordering} {d : β → β → Ordering} {s : Set α} {t : Set β}
    (hc : PreorderOn c s) (hd : PreorderOn d t) :
    PreorderOn (fun p q : α × β => (c p.1 q.1).then (d p.2 q.2)) {p | p.1 ∈ s ∧ p.2 ∈ t} where
  refl p hp := by rw [hc.refl _ hp.1, hd.refl _ hp.2]; rfl
  swap p hp q hq := by
    rw [hc.swap _ hp.1 _ hq.1, hd.swap _ hp.2 _ hq.2]
    cases c p.1 q.1 <;> rfl
  trans p hp q hq r hr hpq hqr := by
    rw [isLE_then_iff] at hpq hqr ⊢
    rcases hpq with hpq | ⟨hpq, hdpq⟩
    · refine .inl (hc.lt_of_lt_of_isLE hp.1 hq.1 hr.1 hpq ?_)
      rcases hqr with hqr | ⟨hqr, -⟩ <;> rw [hqr] <;> rfl
    · rcases hqr with hqr | ⟨hqr, hdqr⟩
      · exact .inl (hc.lt_of_eq_of_lt hp.1 hq.1 hr.1 hpq hqr)
      · refine .inr ⟨hc.eq_of_isLE hp.1 hr.1 ?_ ?_, hd.trans _ hp.2 _ hq.2 _ hr.2 hdpq hdqr⟩
        · exact hc.trans _ hp.1 _ hq.1 _ hr.1 (by rw [hpq]; rfl) (by rw [hqr]; rfl)
        · exact hc.trans _ hr.1 _ hq.1 _ hp.1 (by rw [hc.swap _ hq.1 _ hr.1, hqr]; rfl)
            (by rw [hc.swap _ hp.1 _ hq.1, hpq]; rfl)

end Lib
