import Mathlib.Order.Basic

namespace Rsgc

variable {α : Type*} {step : Nat → Option α} {fuel k : Nat} {a : α}

-- A loop that is left at the first attempt with a result; `fuel` bounds the attempts.
def retry (step : Nat → Option α) : Nat → Nat → Option α
  | 0, _ => none
  | fuel + 1, k =>
      match step k with
      | some a => some a
      | none => retry step fuel (k + 1)

theorem retry_eq_some (h : retry step fuel k = some a) : ∃ n, step n = some a := by
  induction fuel generalizing k with
  | zero => cases h
  | succ fuel ih =>
      unfold retry at h
      cases hstep : step k with
      | some b =>
          rw [hstep] at h
          exact ⟨k, hstep.trans h⟩
      | none =>
          rw [hstep] at h
          exact ih h

-- It ends if some attempt ends it, and all that do have one result.
theorem retry_runs {n : Nat} (hstep : step (k + n) = some a)
    (hall : ∀ i, step i = none ∨ step i = some a) (hfuel : n < fuel) :
    retry step fuel k = some a := by
  induction n generalizing k fuel with
  | zero =>
      obtain ⟨fuel, rfl⟩ : ∃ f, fuel = f + 1 := ⟨fuel - 1, by omega⟩
      unfold retry
      rw [Nat.add_zero] at hstep
      rw [hstep]
  | succ n ih =>
      obtain ⟨fuel, rfl⟩ : ∃ f, fuel = f + 1 := ⟨fuel - 1, by omega⟩
      unfold retry
      rcases hall k with hnone | hsome
      · rw [hnone]
        exact ih (by rwa [Nat.add_assoc, Nat.add_comm 1]) (by omega)
      · rw [hsome]

end Rsgc
