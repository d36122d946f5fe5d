import Mathlib.Logic.Function.Basic
import Rsgc.Lib.Machine

namespace Rsgc.Control

-- The values of `Heap::cancelled_gc`.
inductive CancelFlag
  | cancellable
  | cancelled
  | notCancelled
deriving DecidableEq, Repr

-- `SharedEnumFlag::cmpxchg`: the value afterwards and the value returned. The
-- exchange is a weak one and may fail although the old value is there.
def CancelFlag.cmpxchg (flag old new : CancelFlag) (fails : Bool) : CancelFlag × CancelFlag :=
  if flag = old ∧ fails = false then (new, old) else (flag, flag)

-- `yielding` are the threads in `check_cancelled_gc_and_yield` that will write
-- the flag back. `requested` is not in the source: `try_cancel_gc` has returned
-- true to some thread since the flag was cleared last.
structure Cancellation (τ : Type*) where
  cancelledGc : CancelFlag
  yielding : τ → Bool
  requested : Bool

inductive CancelEvent (τ : Type*)
  | tryCancelGc (thread : τ) (fails : Bool)
  | checkCancelledGcAndYield (thread : τ) (fails : Bool)
  | yielded (thread : τ)
  | clearCancelledGc
deriving DecidableEq

namespace Cancellation

variable {τ : Type*} [DecidableEq τ]

-- `Heap::cancelled_gc`
def isCancelled (s : Cancellation τ) : Bool := s.cancelledGc = .cancelled

-- One turn of the loop of `Heap::try_cancel_gc`.
def tryCancelGc (s : Cancellation τ) (fails : Bool) : Cancellation τ :=
  let (flag, prev) := s.cancelledGc.cmpxchg .cancellable .cancelled fails
  match prev with
  | .cancellable => { s with cancelledGc := flag, requested := true }
  | .cancelled => { s with cancelledGc := flag }
  | .notCancelled => { s with cancelledGc := flag }

-- `Heap::check_cancelled_gc_and_yield` up to where it yields; only the thread
-- that found the flag cancellable writes it back afterwards.
def checkCancelledGcAndYield (s : Cancellation τ) (thread : τ) (fails : Bool) : Cancellation τ :=
  let (flag, prev) := s.cancelledGc.cmpxchg .cancellable .notCancelled fails
  match prev with
  | .cancellable =>
      { s with cancelledGc := flag, yielding := Function.update s.yielding thread true }
  | .cancelled => { s with cancelledGc := flag }
  | .notCancelled => { s with cancelledGc := flag }

def step (s : Cancellation τ) : CancelEvent τ → Option (Cancellation τ)
  | .tryCancelGc thread fails =>
      if s.yielding thread then none else some (s.tryCancelGc fails)
  | .checkCancelledGcAndYield thread fails =>
      if s.yielding thread then none else some (s.checkCancelledGcAndYield thread fails)
  | .yielded thread =>
      if s.yielding thread then
        some { s with cancelledGc := .cancellable,
                      yielding := Function.update s.yielding thread false }
      else none
  | .clearCancelledGc => some { s with cancelledGc := .cancellable, requested := false }

end Cancellation

def cancellation (τ : Type*) [DecidableEq τ] : Machine (Cancellation τ) (CancelEvent τ) where
  init s := s = ⟨.cancellable, fun _ => false, false⟩
  step := Cancellation.step

namespace Cancellation

variable {τ : Type*} [DecidableEq τ]

-- No exchange fails that could have succeeded, and the flag is not cleared
-- while a thread is about to write it back.
def Undisturbed (s : Cancellation τ) : CancelEvent τ → Prop
  | .tryCancelGc _ fails => s.cancelledGc = .cancellable → fails = false
  | .checkCancelledGcAndYield _ fails => s.cancelledGc = .cancellable → fails = false
  | .yielded _ => True
  | .clearCancelledGc => ∀ thread, s.yielding thread = false

-- The third value of the flag belongs to the one thread that will write it back.
structure Inv (s : Cancellation τ) : Prop where
  owner : ∀ thread, s.yielding thread = true → s.cancelledGc = .notCancelled
  unique : ∀ t u, s.yielding t = true → s.yielding u = true → t = u
  sticky : s.requested = true → s.cancelledGc = .cancelled

omit [DecidableEq τ] in
theorem not_yielding {s : Cancellation τ} (h : s.Inv) (hflag : s.cancelledGc ≠ .notCancelled)
    (thread : τ) : s.yielding thread = false := by
  by_contra hy
  exact hflag (h.owner thread (by simpa using hy))

omit [DecidableEq τ] in
theorem Inv.tryCancelGc {s : Cancellation τ} (h : s.Inv) {fails : Bool}
    (hf : s.cancelledGc = .cancellable → fails = false) : (s.tryCancelGc fails).Inv := by
  unfold Cancellation.tryCancelGc CancelFlag.cmpxchg
  cases hflag : s.cancelledGc with
  | cancellable =>
      have hnone := not_yielding h (by rw [hflag]; decide)
      rw [if_pos ⟨rfl, hf hflag⟩]
      exact ⟨fun t ht => absurd ht (by simp [hnone]), h.unique, fun _ => rfl⟩
  | cancelled =>
      have hnone := not_yielding h (by rw [hflag]; decide)
      rw [if_neg (by simp)]
      exact ⟨fun t ht => absurd ht (by simp [hnone]), h.unique, fun _ => rfl⟩
  | notCancelled =>
      rw [if_neg (by simp)]
      exact ⟨fun _ _ => rfl, h.unique, fun hr => by rw [h.sticky hr] at hflag; cases hflag⟩

theorem Inv.checkCancelledGcAndYield {s : Cancellation τ} (h : s.Inv) {thread : τ} {fails : Bool}
    (hf : s.cancelledGc = .cancellable → fails = false) :
    (s.checkCancelledGcAndYield thread fails).Inv := by
  unfold Cancellation.checkCancelledGcAndYield CancelFlag.cmpxchg
  cases hflag : s.cancelledGc with
  | cancellable =>
      have hnone := not_yielding h (by rw [hflag]; decide)
      rw [if_pos ⟨rfl, hf hflag⟩]
      have honly : ∀ t, Function.update s.yielding thread true t = true → t = thread := by
        intro t ht
        by_contra hne
        rw [Function.update_of_ne hne, hnone t] at ht
        cases ht
      exact ⟨fun _ _ => rfl, fun t u ht hu => (honly t ht).trans (honly u hu).symm,
        fun hr => by rw [h.sticky hr] at hflag; cases hflag⟩
  | cancelled =>
      have hnone := not_yielding h (by rw [hflag]; decide)
      rw [if_neg (by simp)]
      exact ⟨fun t ht => absurd ht (by simp [hnone]), h.unique, fun _ => rfl⟩
  | notCancelled =>
      rw [if_neg (by simp)]
      exact ⟨fun _ _ => rfl, h.unique, fun hr => by rw [h.sticky hr] at hflag; cases hflag⟩

theorem Inv.step {s t : Cancellation τ} {e : CancelEvent τ} (h : s.Inv) (hgood : s.Undisturbed e)
    (hstep : s.step e = some t) : t.Inv := by
  cases e with
  | tryCancelGc thread fails =>
      obtain ⟨-, rfl⟩ := guard_not_eq_some.mp hstep
      exact h.tryCancelGc hgood
  | checkCancelledGcAndYield thread fails =>
      obtain ⟨-, rfl⟩ := guard_not_eq_some.mp hstep
      exact h.checkCancelledGcAndYield hgood
  | yielded thread =>
      obtain ⟨hy, rfl⟩ := guard_eq_some.mp hstep
      -- it was the only one, so no thread is left to write back
      have hnone : ∀ t, Function.update s.yielding thread false t = false := by
        intro t
        by_cases ht : t = thread
        · rw [ht, Function.update_self]
        · rw [Function.update_of_ne ht]
          by_contra hyt
          exact ht (h.unique t thread (by simpa using hyt) hy)
      refine ⟨fun t ht => absurd ht (by simp [hnone]), fun t u ht => absurd ht (by simp [hnone]),
        fun hr => ?_⟩
      have hflag := h.owner thread hy
      rw [h.sticky hr] at hflag
      cases hflag
  | clearCancelledGc =>
      obtain rfl := Option.some.inj hstep
      exact ⟨fun t ht => absurd ht (by simp [hgood t]), h.unique, nofun⟩

theorem requested_isCancelled {s : Cancellation τ}
    (hs : (cancellation τ).Via Undisturbed s) (hr : s.requested = true) :
    s.isCancelled = true := by
  have hinv : s.Inv := by
    refine Machine.Via.invariant ?_ (fun _ _ _ h hg hstep => h.step hg hstep) hs
    rintro s rfl
    exact ⟨nofun, nofun, nofun⟩
  exact decide_eq_true (hinv.sticky hr)

instance (s : Cancellation (Fin 2)) (e : CancelEvent (Fin 2)) : Decidable (s.Undisturbed e) := by
  cases e <;> unfold Undisturbed <;> infer_instance

-- A cancellation that waits for the yielding thread and then succeeds.
theorem requested_isCancelled_after_yield :
    ∃ s : Cancellation (Fin 2), (cancellation (Fin 2)).Via Undisturbed s ∧
      s.requested = true ∧ s.isCancelled = true := by
  have hinit : (cancellation (Fin 2)).init ⟨.cancellable, fun _ => false, false⟩ := rfl
  have hrun : ((cancellation (Fin 2)).runVia Undisturbed ⟨.cancellable, fun _ => false, false⟩
      [.checkCancelledGcAndYield 0 false, .tryCancelGc 1 true, .yielded 0,
        .tryCancelGc 1 false]).map (·.requested) = some true := by decide
  obtain ⟨s, hs, hr⟩ := Option.map_eq_some_iff.mp hrun
  have hvia := Machine.via_of_runVia (Machine.Via.init hinit) hs
  exact ⟨s, hvia, hr, requested_isCancelled hvia hr⟩

-- The exchange fails although the flag was cancellable: `try_cancel_gc` takes
-- the value returned for success.
theorem failed_exchange_loses_request :
    ∃ s : Cancellation (Fin 2), (cancellation (Fin 2)).Reachable s ∧
      s.requested = true ∧ s.isCancelled = false := by
  have hinit : (cancellation (Fin 2)).init ⟨.cancellable, fun _ => false, false⟩ := rfl
  have hrun : ((cancellation (Fin 2)).run ⟨.cancellable, fun _ => false, false⟩
      [.tryCancelGc 0 true]).map (fun s => (s.requested, s.isCancelled)) =
        some (true, false) := by decide
  obtain ⟨s, hs, hr⟩ := Option.map_eq_some_iff.mp hrun
  obtain ⟨hreq, hcan⟩ := Prod.mk.inj hr
  exact ⟨s, Machine.run_reachable (Machine.Via.init hinit) hs, hreq, hcan⟩

end Cancellation

end Rsgc.Control
