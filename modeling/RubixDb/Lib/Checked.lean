import Mathlib.Tactic.Common

/-!
# Computations that can panic

A call returns a value, fails with an error, or panics: an index past the end, a
difference below zero, a division by zero. A panic is an outcome of its own, so that a
caller cannot mistake it for an error.

`Ensures x P` says that the call `x` does not panic and that what it returns meets `P`;
an error is allowed. It follows the structure of the call: there is a rule for a
sequence, for a choice and for each operation that can panic.
-/

namespace Lib

/-- How a call ends that does not return. -/
inductive Fault (ε : Type) where
  | error (e : ε)
  | panicked
deriving DecidableEq, Repr

abbrev Checked (ε α : Type) := Except (Fault ε) α

section Operations

variable {ε α β : Type} {x : Checked ε α} {P : α → Prop} {xs : List α} {i a b : Nat}

def raise (e : ε) : Checked ε α := .error (.error e)

def panicked : Checked ε α := .error .panicked

/-- `xs[i]`. -/
def indexAt (xs : List α) (i : Nat) : Checked ε α :=
  match xs[i]? with
  | some x => .ok x
  | none => panicked

/-- `a - b` of unsigned integers. -/
def checkedSub (a b : Nat) : Checked ε Nat := if a < b then panicked else .ok (a - b)

/-- `a / b`. -/
def checkedDiv (a b : Nat) : Checked ε Nat := if b = 0 then panicked else .ok (a / b)

/-- `a % b`. -/
def checkedRem (a b : Nat) : Checked ε Nat := if b = 0 then panicked else .ok (a % b)

/-! ## What a call ensures -/

/-- The call does not panic, and what it returns meets `P`. -/
def Ensures (x : Checked ε α) (P : α → Prop) : Prop :=
  match x with
  | .ok a => P a
  | .error (.error _) => True
  | .error .panicked => False

/-- The call does not panic. -/
def Safe (x : Checked ε α) : Prop := Ensures x fun _ => True

theorem ensures_raise (e : ε) (P : α → Prop) : Ensures (raise e) P := trivial

/-- **The rule for a sequence.** -/
theorem Ensures.bind {f : α → Checked ε β} {Q : β → Prop} (hx : Ensures x P)
    (hf : ∀ a, P a → Ensures (f a) Q) : Ensures (x >>= f) Q := by
  match x, hx with
  | .ok a, hx => exact hf a hx
  | .error (.error e), _ => trivial

theorem Ensures.mono {Q : α → Prop} (hx : Ensures x P) (h : ∀ a, P a → Q a) : Ensures x Q := by
  match x, hx with
  | .ok a, hx => exact h a hx
  | .error (.error e), _ => trivial

theorem Ensures.of_ok {a : α} (hx : Ensures x P) (h : x = .ok a) : P a := by
  subst h
  exact hx

theorem ensures_ite {c : Prop} [Decidable c] {y : Checked ε α} (hx : c → Ensures x P)
    (hy : ¬c → Ensures y P) : Ensures (if c then x else y) P := by
  split_ifs with h
  · exact hx h
  · exact hy h

theorem indexAt_eq (h : i < xs.length) : (indexAt xs i : Checked ε α) = .ok xs[i] := by
  rw [indexAt, List.getElem?_eq_getElem h]

theorem safe_indexAt (h : i < xs.length) : Safe (indexAt xs i : Checked ε α) := by
  rw [indexAt_eq h]
  trivial

theorem checkedSub_eq (h : b ≤ a) : (checkedSub a b : Checked ε Nat) = .ok (a - b) := by
  rw [checkedSub, if_neg (by omega)]

theorem safe_checkedSub (h : b ≤ a) : Safe (checkedSub a b : Checked ε Nat) := by
  rw [checkedSub_eq h]
  trivial

theorem checkedDiv_eq (h : b ≠ 0) : (checkedDiv a b : Checked ε Nat) = .ok (a / b) := by
  rw [checkedDiv, if_neg h]

theorem checkedRem_eq (h : b ≠ 0) : (checkedRem a b : Checked ε Nat) = .ok (a % b) := by
  rw [checkedRem, if_neg h]

end Operations

end Lib
