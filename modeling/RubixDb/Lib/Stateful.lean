import Mathlib

/-!
# Computations that change a state and may fail

Two judgments about `EStateM` programs in which a failure keeps the state it came to.
`Leads R x` is about one run: `x` only makes changes that `R` allows. `Blind S x` is about
two runs: `x` does not see what `S` leaves open. Each has one rule for each way a program
is put together.
-/

namespace Lib

variable {ε σ α β : Type} {x : EStateM ε σ α} {f : α → EStateM ε σ β}

/-- The state a run ends in, whether it returns or fails. -/
def finalState : EStateM.Result ε σ α → σ
  | .ok _ s => s
  | .error _ s => s

/-- Whatever state `x` is run from, the one it ends in is related to it. -/
def Leads (R : σ → σ → Prop) (x : EStateM ε σ α) : Prop := ∀ s, R s (finalState (x s))

/-- The same result or the same failure, in related states. -/
def SameOutcome (S : σ → σ → Prop) : EStateM.Result ε σ α → EStateM.Result ε σ α → Prop
  | .ok a s, .ok b t => a = b ∧ S s t
  | .error e s, .error f t => e = f ∧ S s t
  | _, _ => False

/-- Run from related states, `x` has the same outcome. -/
def Blind (S : σ → σ → Prop) (x : EStateM ε σ α) : Prop := ∀ s t, S s t → SameOutcome S (x s) (x t)

section Leads

variable {R : σ → σ → Prop}

theorem Leads.pure (hrefl : ∀ s, R s s) (a : α) : Leads R (pure a : EStateM ε σ α) := hrefl

theorem Leads.throw (hrefl : ∀ s, R s s) (e : ε) : Leads R (throw e : EStateM ε σ α) := hrefl

theorem Leads.bind (htrans : ∀ {s t u}, R s t → R t u → R s u) (hx : Leads R x)
    (hf : ∀ a, Leads R (f a)) : Leads R (x >>= f) := by
  intro s
  have h := hx s
  show R s (finalState (EStateM.bind x f s))
  unfold EStateM.bind
  cases hs : x s with
  | error e t => rw [hs] at h; exact h
  | ok a t => rw [hs] at h; exact htrans h (hf a t)

theorem Leads.get_bind {f : σ → EStateM ε σ β} (hf : ∀ s, Leads R (f s)) : Leads R (get >>= f) :=
  fun s => hf s s

end Leads

section Blind

variable {S : σ → σ → Prop}

theorem Blind.pure (a : α) : Blind S (pure a : EStateM ε σ α) := fun _ _ h => ⟨rfl, h⟩

theorem Blind.throw (e : ε) : Blind S (throw e : EStateM ε σ α) := fun _ _ h => ⟨rfl, h⟩

theorem Blind.bind (hx : Blind S x) (hf : ∀ a, Blind S (f a)) : Blind S (x >>= f) := by
  intro s t hst
  have h := hx s t hst
  show SameOutcome S (EStateM.bind x f s) (EStateM.bind x f t)
  unfold EStateM.bind
  -- both runs of `x` return, or both fail
  cases hs : x s with
  | error e s' =>
    cases ht : x t with
    | error e' t' => rw [hs, ht] at h; exact h
    | ok b t' => rw [hs, ht] at h; exact h.elim
  | ok a s' =>
    cases ht : x t with
    | error e' t' => rw [hs, ht] at h; exact h.elim
    | ok b t' =>
      rw [hs, ht] at h
      obtain ⟨rfl, h⟩ := h
      exact hf a s' t' h

/-- What is read from the state must not depend on what `S` leaves open. -/
theorem Blind.get_bind {f : σ → EStateM ε σ β} (hsame : ∀ s t, S s t → f s = f t)
    (hf : ∀ s, Blind S (f s)) : Blind S (get >>= f) := by
  intro s t h
  show SameOutcome S (f s s) (f t t)
  rw [← hsame s t h]
  exact hf s s t h

end Blind

end Lib
