import Mathlib.Data.Nat.Basic
import Mathlib.Data.Option.Basic

/-!
# Loops that run until nothing changes

A loop looks at its state and either stops or goes on with a smaller one.  Such a loop ends; what it
ends with is a state at which it stops (`next_settle`), an invariant of the step holds there
(`settle_induct`), and two loops that step alike end alike (`settle_rel`).
-/

namespace OtelStorage

/-- A step that makes the state smaller, or stops. -/
structure Settling (σ : Type*) where
  next : σ → Option σ
  size : σ → ℕ
  smaller : ∀ s s', next s = some s' → size s' < size s

namespace Settling

variable {σ τ : Type*} (L : Settling σ) (M : Settling τ) {s : σ}

set_option linter.unusedVariables false in
/-- The state the loop stops at. -/
def settle (L : Settling σ) (s : σ) : σ :=
  match h : L.next s with
  | none => s
  | some s' => settle L s'
termination_by L.size s
decreasing_by exact L.smaller s s' h

theorem settle_of_none (h : L.next s = none) : L.settle s = s := by
  rw [settle]
  split
  · rfl
  · next h' => cases h.symm.trans h'

theorem settle_of_some {s' : σ} (h : L.next s = some s') : L.settle s = L.settle s' := by
  rw [settle]
  split
  · next h' => cases h.symm.trans h'
  · next t h' =>
    rw [h] at h'
    cases h'
    rfl

/-- **What holds at the start and is kept by every step holds where the loop stops.** -/
theorem settle_induct {P : σ → Prop} (hstep : ∀ s s', P s → L.next s = some s' → P s') (hs : P s) :
    P (L.settle s) := by
  induction hn : L.size s using Nat.strong_induction_on generalizing s with
  | _ n ih =>
    cases h : L.next s with
    | none => rwa [L.settle_of_none h]
    | some s' =>
      rw [L.settle_of_some h]
      exact ih _ (hn ▸ L.smaller s s' h) (hstep s s' hs h) rfl

theorem next_settle (s : σ) : L.next (L.settle s) = none := by
  induction hn : L.size s using Nat.strong_induction_on generalizing s with
  | _ n ih =>
    cases h : L.next s with
    | none => rwa [L.settle_of_none h]
    | some s' =>
      rw [L.settle_of_some h]
      exact ih _ (hn ▸ L.smaller s s' h) s' rfl

/-- **Loops that step alike end alike.** -/
theorem settle_rel {R : σ → τ → Prop}
    (hstep : ∀ s t, R s t → Option.Rel R (L.next s) (M.next t)) {t : τ} (h : R s t) :
    R (L.settle s) (M.settle t) := by
  induction hn : L.size s using Nat.strong_induction_on generalizing s t with
  | _ n ih =>
    have hrel := hstep s t h
    cases hs : L.next s with
    | none =>
      rw [hs] at hrel
      cases ht : M.next t with
      | none => rwa [L.settle_of_none hs, M.settle_of_none ht]
      | some t' =>
        rw [ht] at hrel
        cases hrel
    | some s' =>
      rw [hs] at hrel
      cases ht : M.next t with
      | none =>
        rw [ht] at hrel
        cases hrel
      | some t' =>
        rw [ht] at hrel
        cases hrel with
        | some hst =>
          rw [L.settle_of_some hs, M.settle_of_some ht]
          exact ih _ (hn ▸ L.smaller s s' hs) hst rfl

end Settling
end OtelStorage
