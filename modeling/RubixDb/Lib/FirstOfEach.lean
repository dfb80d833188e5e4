import Mathlib.Data.List.Forall2
import Mathlib.Data.List.Perm.Basic

/-!
# The first of each class

A filter that drops an element whose value is related to a value it has let through. For a
relation that is symmetric and transitive, the order of the input decides which element of
a class passes and nothing else.
-/

namespace Lib

open List

variable {α β : Type} {r : β → β → Bool} {f : α → β} {seen : List β} {as bs : List α} {a : α}

def firstOfEach (r : β → β → Bool) (f : α → β) (seen : List β) : List α → List α
  | [] => []
  | a :: as =>
    if seen.any (r · (f a)) then firstOfEach r f seen as
    else a :: firstOfEach r f (seen ++ [f a]) as

/-- The same element, or one of its class. -/
def SameClass (r : β → β → Bool) (f : α → β) (a b : α) : Prop := a = b ∨ r (f a) (f b) = true

/-- What was seen counts only for what is related to it. -/
theorem firstOfEach_congr {seen' : List β} (h : ∀ b, seen.any (r · b) = seen'.any (r · b))
    (as : List α) : firstOfEach r f seen as = firstOfEach r f seen' as := by
  induction as generalizing seen seen' with
  | nil => rfl
  | cons a as ih =>
    have hnext : ∀ b, (seen ++ [f a]).any (r · b) = (seen' ++ [f a]).any (r · b) := fun b => by
      rw [any_append, any_append, h b]
    rw [firstOfEach, firstOfEach, h, ih h, ih hnext]

theorem forall₂_trans {R : α → α → Prop} (ht : ∀ a b c, R a b → R b c → R a c) {cs : List α}
    (h : List.Forall₂ R as bs) (h' : List.Forall₂ R bs cs) : List.Forall₂ R as cs := by
  induction h generalizing cs with
  | nil => exact h'
  | cons hab _ ih =>
    cases h' with
    | cons hbc h' => exact .cons (ht _ _ _ hab hbc) (ih h')

section

variable (hsymm : ∀ a b, r a b = true → r b a = true)
  (htrans : ∀ a b c, r a b = true → r b c = true → r a c = true)

include hsymm in
theorem SameClass.symm {a b : α} (h : SameClass r f a b) : SameClass r f b a :=
  h.imp Eq.symm (hsymm _ _)

include htrans

theorem SameClass.trans {a b c : α} (hab : SameClass r f a b) (hbc : SameClass r f b c) :
    SameClass r f a c := by
  rcases hab with rfl | hab
  · exact hbc
  · rcases hbc with rfl | hbc
    · exact .inr hab
    · exact .inr (htrans _ _ _ hab hbc)

/-- What passes is what nothing before it is related to. -/
theorem mem_firstOfEach : a ∈ firstOfEach r f seen as ↔
    ∃ p q, as = p ++ a :: q ∧ ∀ b ∈ seen ++ p.map f, ¬ r b (f a) = true := by
  induction as generalizing seen with
  | nil => simp [firstOfEach]
  | cons c as ih =>
    rw [firstOfEach]
    split
    · rename_i hseen
      obtain ⟨e, he, hec⟩ := any_eq_true.mp hseen
      rw [ih]
      constructor
      · rintro ⟨p, q, rfl, hnot⟩
        refine ⟨c :: p, q, rfl, fun b hb hba => ?_⟩
        -- what is related to the dropped element is related to what it was dropped for
        rcases mem_append.mp hb with hb | hb
        · exact hnot b (mem_append_left _ hb) hba
        · rcases mem_cons.mp hb with rfl | hb
          · exact hnot e (mem_append_left _ he) (htrans _ _ _ hec hba)
          · exact hnot b (mem_append_right _ hb) hba
      · rintro ⟨p, q, heq, hnot⟩
        cases p with
        | nil =>
          obtain ⟨rfl, -⟩ := List.cons.inj heq
          exact absurd hec (hnot e (mem_append_left _ he))
        | cons x p =>
          obtain ⟨rfl, rfl⟩ := List.cons.inj heq
          exact ⟨p, q, rfl, fun b hb => hnot b (by simp at hb ⊢; tauto)⟩
    · rename_i hnew
      rw [mem_cons, ih]
      constructor
      · rintro (rfl | ⟨p, q, rfl, hnot⟩)
        · refine ⟨[], as, rfl, fun b hb hba => hnew (any_eq_true.mpr ⟨b, ?_, hba⟩)⟩
          simpa using hb
        · exact ⟨c :: p, q, rfl, fun b hb => hnot b (by simp at hb ⊢; tauto)⟩
      · rintro ⟨p, q, heq, hnot⟩
        cases p with
        | nil => exact .inl (List.cons.inj heq).1.symm
        | cons x p =>
          obtain ⟨rfl, rfl⟩ := List.cons.inj heq
          exact .inr ⟨p, q, rfl, fun b hb => hnot b (by simp at hb ⊢; tauto)⟩

/-- An element that is moved to the front is all that can pass in addition. -/
theorem mem_firstOfEach_of_front {p q : List α} {b : α}
    (h : b ∈ firstOfEach r f [] (a :: (p ++ q))) :
    b = a ∨ b ∈ firstOfEach r f [] (p ++ a :: q) := by
  rw [mem_firstOfEach htrans] at h ⊢
  obtain ⟨p', q', heq, hnot⟩ := h
  cases p' with
  | nil => exact .inl (List.cons.inj heq).1.symm
  | cons x p' =>
    obtain ⟨rfl, hrest⟩ := List.cons.inj heq
    right
    rcases append_eq_append_iff.mp hrest with ⟨m, rfl, rfl⟩ | ⟨m, rfl, hm⟩
    · exact ⟨p ++ a :: m, q', by simp, fun c hc => hnot c ((perm_middle.map f).subset hc)⟩
    · cases m with
      | nil =>
        obtain rfl : b :: q' = q := hm
        exact ⟨p' ++ [a], q', by simp, fun c hc => hnot c (by simp at hc ⊢; tauto)⟩
      | cons y m =>
        obtain ⟨rfl, rfl⟩ := List.cons.inj hm
        exact ⟨p', m ++ a :: q, by simp, fun c hc => hnot c (by simp at hc ⊢; tauto)⟩

include hsymm

/-- **Another order of the input lets the same classes through.** -/
theorem firstOfEach_perm (h : as.Perm bs) (seen : List β) :
    ∃ l, List.Forall₂ (SameClass r f) (firstOfEach r f seen as) l ∧
      l.Perm (firstOfEach r f seen bs) := by
  have hrefl : ∀ l : List α, List.Forall₂ (SameClass r f) l l := fun l =>
    forall₂_same.mpr fun _ _ => .inl rfl
  induction h generalizing seen with
  | nil => exact ⟨[], .nil, .nil⟩
  | @cons a as bs _ ih =>
    rw [firstOfEach, firstOfEach]
    split
    · exact ih seen
    · obtain ⟨l, hl, hperm⟩ := ih (seen ++ [f a])
      exact ⟨a :: l, .cons (.inl rfl) hl, hperm.cons a⟩
  | swap a b l =>
    simp only [firstOfEach, any_append, any_cons, any_nil, Bool.or_false]
    cases ha : seen.any (r · (f a)) with
    | true =>
      cases hb : seen.any (r · (f b)) <;> simpa [ha, hb] using ⟨_, hrefl _, .refl _⟩
    | false =>
      cases hb : seen.any (r · (f b)) with
      | true => simpa [ha, hb] using ⟨_, hrefl _, .refl _⟩
      | false =>
        by_cases hab : r (f a) (f b) = true
        · -- one class: its first element differs, and what is seen of it
          have hba := hsymm _ _ hab
          simp only [hab, hba, Bool.false_or, Bool.false_eq_true, if_true, if_false]
          have hseen : ∀ c, (seen ++ [f b]).any (r · c) = (seen ++ [f a]).any (r · c) := fun c => by
            rw [any_append, any_append, any_cons]
            congr 2
            exact Bool.eq_iff_iff.mpr ⟨htrans _ _ _ hab, htrans _ _ _ hba⟩
          rw [firstOfEach_congr hseen]
          exact ⟨_, .cons (.inr hba) (hrefl _), .refl _⟩
        · have hba : r (f b) (f a) = false := Bool.eq_false_iff.mpr fun h => hab (hsymm _ _ h)
          simp only [hab, hba, Bool.false_or, Bool.false_eq_true, if_false]
          have hseen : ∀ c, (seen ++ [f b] ++ [f a]).any (r · c) =
              (seen ++ [f a] ++ [f b]).any (r · c) := fun c => by
            simp only [any_append, Bool.or_assoc]
            rw [Bool.or_comm (List.any [f b] _)]
          rw [firstOfEach_congr hseen]
          exact ⟨_, hrefl _, .swap a b _⟩
  | trans _ _ ih ih' =>
    obtain ⟨l, hl, hperm⟩ := ih seen
    obtain ⟨l', hl', hperm'⟩ := ih' seen
    obtain ⟨m, hm, hml⟩ := perm_comp_forall₂ hperm hl'
    exact ⟨m, forall₂_trans (fun _ _ _ h => h.trans htrans) hl hm, hml.trans hperm'⟩

end

end Lib
