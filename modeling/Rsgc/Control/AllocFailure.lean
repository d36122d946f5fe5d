import Rsgc.Control.GcRequest

namespace Rsgc.Control

-- Where a thread is in `handle_alloc_failure_gc`: the test and the exchange of `try_set`,
-- `cancel_gc`, and the loop over the wait.
inductive Handling
  | testing
  | exchanging
  | cancelling
  | locking
  | checking
  | checked
  | waiting
  | woken
  | leaving
deriving DecidableEq, Repr

-- Where a thread is in `Heap::allocate_memory`. `tries` is the counter of its loop. Not in
-- the source: `since`, the collections that were over when the first attempt failed.
inductive Allocator
  | idle
  | attempting (tries since : Nat)
  | handling (tries since : Nat) (place : Handling)
  | allocated
  | exhausted (since : Nat)
deriving DecidableEq, Repr

-- Where the controller is in a turn of `run_service`, with the flag that it has read. In
-- `stopped` a collection runs and the mutators are at safepoints.
inductive Turn
  | polling
  | chosen (pending : Bool) (mode : GCMode)
  | concurrent (pending : Bool)
  | stopped (pending : Bool)
  | collected (pending : Bool)
  | unset
  | locked
  | notified
  | terminated
deriving DecidableEq, Repr

def Turn.isStopped : Turn → Bool
  | stopped _ => true
  | _ => false

-- Not in the source: `collections`, the stopped collections that are over.
structure AllocFailures (τ : Type*) where
  allocFailureGc : Bool
  waitersLock : Option (Holder τ)
  allocator : τ → Allocator
  turn : Turn
  collections : Nat

-- `attempt` is `allocate_memory_under_lock`. A weak exchange may fail for no reason.
inductive AllocEvent (τ : Type*)
  | call (thread : τ)
  | attempt (thread : τ) (succeeds : Bool)
  | test (thread : τ)
  | exchange (thread : τ) (spurious : Bool)
  | cancel (thread : τ)
  | lock (thread : τ)
  | check (thread : τ)
  | wait (thread : τ)
  | relock (thread : τ)
  | leave (thread : τ)
  | poll (explicitGcRequested : Bool) (heuristics : Heuristics)
  | begin
  | finish
  | unset
  | lockWaiters
  | notifyAll
  | dropLocker
  | endTurn
  | terminate
deriving DecidableEq

def Allocator.notified : Allocator → Allocator
  | .handling tries since .waiting => .handling tries since .woken
  | a => a

namespace AllocFailures

variable {τ : Type*} [DecidableEq τ]

def goto (s : AllocFailures τ) (thread : τ) (a : Allocator) : AllocFailures τ :=
  { s with allocator := Function.update s.allocator thread a }

def notifyAll (s : AllocFailures τ) : AllocFailures τ :=
  { s with allocator := fun thread => (s.allocator thread).notified }

-- The loop of `allocate_memory` after an attempt
def failed (s : AllocFailures τ) (tries since : Nat) : Allocator :=
  let since := if tries = 0 then s.collections else since
  if tries < 3 then .handling (tries + 1) since .testing else .exhausted since

-- A thread in its own code is at no safepoint.
def stepThread (s : AllocFailures τ) : AllocEvent τ → Option (AllocFailures τ)
  | .call thread =>
      match s.allocator thread with
      | .idle | .allocated | .exhausted _ => some (s.goto thread (.attempting 0 0))
      | _ => none
  | .attempt thread succeeds =>
      match s.allocator thread with
      | .attempting tries since =>
          some (s.goto thread (if succeeds then .allocated else s.failed tries since))
      | _ => none
  | .test thread =>
      match s.allocator thread with
      | .handling tries since .testing =>
          some (s.goto thread
            (.handling tries since (if s.allocFailureGc then .locking else .exchanging)))
      | _ => none
  | .exchange thread spurious =>
      match s.allocator thread with
      | .handling tries since .exchanging =>
          if s.allocFailureGc ∨ spurious then some (s.goto thread (.handling tries since .locking))
          else
            some { s.goto thread (.handling tries since .cancelling) with allocFailureGc := true }
      | _ => none
  | .cancel thread =>
      match s.allocator thread with
      | .handling tries since .cancelling => some (s.goto thread (.handling tries since .locking))
      | _ => none
  | .check thread =>
      match s.allocator thread with
      | .handling tries since .checking =>
          some (s.goto thread
            (.handling tries since (if s.allocFailureGc then .checked else .leaving)))
      | _ => none
  | .wait thread =>
      match s.allocator thread with
      | .handling tries since .checked =>
          some { s.goto thread (.handling tries since .waiting) with waitersLock := none }
      | _ => none
  | .leave thread =>
      match s.allocator thread with
      | .handling tries since .leaving =>
          some { (s.goto thread (.attempting tries since)).notifyAll with waitersLock := none }
      | _ => none
  | _ => none

-- To acquire the lock is safe for a thread while the world is stopped.
def stepLock (s : AllocFailures τ) (thread : τ) (waited : Handling) : Option (AllocFailures τ) :=
  match s.allocator thread, s.waitersLock with
  | .handling tries since place, none =>
      if place = waited then
        some { s.goto thread (.handling tries since .checking) with
          waitersLock := some (.caller thread) }
      else none
  | _, _ => none

-- `run_service` and `notify_alloc_failure_waiters`
def stepController (s : AllocFailures τ) : AllocEvent τ → Option (AllocFailures τ)
  | .poll explicitGcRequested heuristics =>
      match s.turn with
      | .polling =>
          let mode := selectMode s.allocFailureGc explicitGcRequested heuristics
          some { s with turn := if mode = .none then .polling else .chosen s.allocFailureGc mode }
      | _ => none
  | .begin =>
      match s.turn with
      | .chosen pending .concurrent => some { s with turn := .concurrent pending }
      | .chosen pending .stwDegen | .chosen pending .stwFull =>
          some { s with turn := .stopped pending }
      | _ => none
  | .finish =>
      match s.turn with
      | .concurrent pending => some { s with turn := .collected pending }
      | .stopped pending =>
          some { s with turn := .collected pending, collections := s.collections + 1 }
      | _ => none
  | .unset =>
      match s.turn with
      | .collected true => some { s with turn := .unset, allocFailureGc := false }
      | _ => none
  | .lockWaiters =>
      match s.turn, s.waitersLock with
      | .unset, none => some { s with turn := .locked, waitersLock := some .controller }
      | _, _ => none
  | .notifyAll =>
      match s.turn with
      | .locked => some { s.notifyAll with turn := .notified }
      | _ => none
  | .dropLocker =>
      match s.turn with
      | .notified => some { s.notifyAll with turn := .polling, waitersLock := none }
      | _ => none
  | .endTurn =>
      match s.turn with
      | .collected false => some { s with turn := .polling }
      | _ => none
  | .terminate =>
      match s.turn with
      | .polling => some { s with turn := .terminated }
      | _ => none
  | _ => none

def step (s : AllocFailures τ) (e : AllocEvent τ) : Option (AllocFailures τ) :=
  match e with
  | .call _ | .attempt _ _ | .test _ | .exchange _ _ | .cancel _ | .check _ | .wait _ | .leave _ =>
      if s.turn.isStopped then none else s.stepThread e
  | .lock thread => s.stepLock thread .locking
  | .relock thread => s.stepLock thread .woken
  | _ => s.stepController e

end AllocFailures

def allocFailures (τ : Type*) [DecidableEq τ] : Machine (AllocFailures τ) (AllocEvent τ) where
  init s := s = ⟨false, none, fun _ => .idle, .polling, 0⟩
  step := AllocFailures.step

namespace AllocFailures

variable {τ : Type*} [DecidableEq τ] {s u : AllocFailures τ}

-- A turn that has seen the flag collects with the world stopped.
theorem selectMode_pending (explicitGcRequested : Bool) (heuristics : Heuristics) :
    selectMode true explicitGcRequested heuristics = .stwDegen ∨
      selectMode true explicitGcRequested heuristics = .stwFull := by
  unfold selectMode
  cases heuristics.shouldDegenerateCycle <;> cases heuristics.alwaysFull <;> simp

-- A step is one of a thread between safepoints, one that takes the lock, or the controller's.
theorem step_cases {e : AllocEvent τ} (h : s.step e = some u) :
    s.stepThread e = some u ∨
      (∃ thread waited, (waited = .locking ∨ waited = .woken) ∧ s.stepLock thread waited = some u) ∨
      s.stepController e = some u := by
  unfold AllocFailures.step at h
  split at h
  case h_9 thread => exact Or.inr (Or.inl ⟨thread, _, Or.inl rfl, h⟩)
  case h_10 thread => exact Or.inr (Or.inl ⟨thread, _, Or.inr rfl, h⟩)
  case h_11 => exact Or.inr (Or.inr h)
  all_goals
    rw [Option.ite_none_left_eq_some] at h
    exact Or.inl h.2

end AllocFailures

end Rsgc.Control
