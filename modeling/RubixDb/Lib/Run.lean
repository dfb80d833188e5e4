import Mathlib

/-!
# Runs of an executable step function

A machine is a partial step function `step : σ → α → Option σ`: `none` means the
action is not enabled. `Reach step C s t` says `t` is reached from `s` by steps
that all meet `C`, a condition on the state before the step and the action taken.

`Reach.invariant` is the induction rule every invariant goes through, and
`reach_of_run` turns a list of actions that evaluates into such a run, which is
how concrete traces are obtained.
-/

namespace Lib

variable {σ α : Type}

/-- `t` is reached from `s` by steps that all meet `C`. -/
inductive Reach (step : σ → α → Option σ) (C : σ → α → Prop) (s : σ) : σ → Prop where
  | refl : Reach step C s s
  | tail {t u : σ} {a : α} : Reach step C s t → C t a → step t a = some u → Reach step C s u

variable {step : σ → α → Option σ} {C D : σ → α → Prop} {s t u : σ}

/-- **The invariant rule.** What holds at the start and survives every step that
meets the condition holds in every state reached. -/
theorem Reach.invariant {P : σ → Prop} (h : Reach step C s t) (h0 : P s)
    (hstep : ∀ {t u : σ} {a : α}, P t → C t a → step t a = some u → P u) : P t := by
  induction h with
  | refl => exact h0
  | tail _ hc hs ih => exact hstep ih hc hs

theorem Reach.trans (h : Reach step C s t) (h' : Reach step C t u) : Reach step C s u := by
  induction h' with
  | refl => exact h
  | tail _ hc hs ih => exact ih.tail hc hs

/-- Run a list of actions, checking the condition before each one. -/
def run (step : σ → α → Option σ) (C : σ → α → Prop) [∀ s a, Decidable (C s a)] (s : σ) :
    List α → Option σ
  | [] => some s
  | a :: as => if C s a then (step s a).bind fun s' => run step C s' as else none

/-- A run that evaluates is a run. -/
theorem reach_of_run [∀ s a, Decidable (C s a)] {as : List α} {s t : σ}
    (h : run step C s as = some t) : Reach step C s t := by
  induction as generalizing s t with
  | nil =>
    obtain rfl : s = t := Option.some.inj h
    exact .refl
  | cons a as ih =>
    unfold run at h
    split_ifs at h with hc
    obtain ⟨s', hs', h'⟩ := Option.bind_eq_some_iff.mp h
    exact (Reach.refl.tail hc hs').trans (ih h')

/-- A run that evaluates to a state with a decidable property. -/
theorem exists_reach_of_run [∀ s a, Decidable (C s a)] {P : σ → Prop} [DecidablePred P]
    (as : List α) (h : (run step C s as).any (fun t => decide (P t)) = true) :
    ∃ t, Reach step C s t ∧ P t := by
  cases ht : run step C s as with
  | none => rw [ht] at h; cases h
  | some t =>
    rw [ht] at h
    exact ⟨t, reach_of_run ht, of_decide_eq_true h⟩

/-- What holds in a list and of the element behind it. -/
theorem forall_mem_concat {P : α → Prop} {l : List α} {a : α} (hl : ∀ x ∈ l, P x) (ha : P a) :
    ∀ x ∈ l ++ [a], P x :=
  List.forall_mem_append.mpr ⟨hl, List.forall_mem_singleton.mpr ha⟩

section Fallible

variable {ε β γ : Type}

@[simp] theorem ok_bind (b : β) (f : β → Except ε γ) : (Except.ok b >>= f) = f b := rfl

/-- A sequence that succeeds is two computations that do. -/
theorem bind_eq_ok {x : Except ε β} {f : β → Except ε γ} {c : γ} :
    (x >>= f) = .ok c ↔ ∃ b, x = .ok b ∧ f b = .ok c := by
  constructor
  · intro h
    cases x with
    | error e => cases h
    | ok b => exact ⟨b, rfl, h⟩
  · rintro ⟨b, rfl, h⟩
    exact h

end Fallible

section Stateful

variable {ε τ β γ : Type}

/-- The same for computations that also change a state. -/
theorem estate_bind_eq_ok {x : EStateM ε τ β} {f : β → EStateM ε τ γ} {s u : τ} {c : γ} :
    (x >>= f) s = .ok c u ↔ ∃ b t, x s = .ok b t ∧ f b t = .ok c u := by
  show EStateM.bind x f s = _ ↔ _
  unfold EStateM.bind
  constructor
  · intro h
    cases hx : x s with
    | error e t => rw [hx] at h; cases h
    | ok b t => rw [hx] at h; exact ⟨b, t, rfl, h⟩
  · rintro ⟨b, t, hx, hf⟩
    rw [hx]
    exact hf

theorem estate_pure_eq_ok {a b : β} {s t : τ} :
    (pure a : EStateM ε τ β) s = .ok b t ↔ a = b ∧ s = t := by
  constructor
  · intro h
    cases h
    exact ⟨rfl, rfl⟩
  · rintro ⟨rfl, rfl⟩
    rfl

@[simp] theorem estate_get_bind (f : τ → EStateM ε τ γ) (s : τ) : (get >>= f) s = f s s := rfl

@[simp] theorem estate_set_bind (t : τ) (f : PUnit → EStateM ε τ γ) (s : τ) :
    (set t >>= f) s = f ⟨⟩ t := rfl

@[simp] theorem estate_modify_bind (g : τ → τ) (f : PUnit → EStateM ε τ γ) (s : τ) :
    (modify g >>= f) s = f ⟨⟩ (g s) := rfl

/-- A call that evaluates to a result and a state with a decidable property. -/
theorem exists_estate_ok {x : EStateM.Result ε τ β} {P : β → τ → Prop} [∀ b t, Decidable (P b t)]
    (h : (match x with | .ok b t => decide (P b t) | .error _ _ => false) = true) :
    ∃ b t, x = .ok b t ∧ P b t := by
  cases x with
  | error e t => cases h
  | ok b t => exact ⟨b, t, rfl, of_decide_eq_true h⟩

end Stateful

/-- A computation that evaluates to a result with a decidable property. -/
theorem exists_ok {ε β : Type} {x : Except ε β} {P : β → Prop} [DecidablePred P]
    (h : x.toOption.any (fun b => decide (P b)) = true) : ∃ b, x = .ok b ∧ P b := by
  cases x with
  | error e => cases h
  | ok b => exact ⟨b, rfl, of_decide_eq_true h⟩

end Lib
