import Rsgc.Storage.Store.Disjoint
import Rsgc.Storage.Store.Pauses

namespace Rsgc.Storage

-- Where a thread is in the `retire` of `Threads::remove_current_thread`: it has
-- found its buffer open, given the tail back, or found no tail to give back, and
-- then set `top`, `end` and `start` to zero, one after the other.
inductive ExitPlace
  | running
  | checked
  | returned
  | unused
  | topCleared
  | endCleared
  | startCleared
  | exited
deriving DecidableEq, Repr

-- A tail that was put on a free list: the buffer with number `lab` of a thread.
-- `swept` tells whether the region was being swept.
structure Insertion where
  thread : Nat
  lab : Nat
  swept : Bool
deriving DecidableEq, Repr

-- The store while threads exit. A thread with `safe` set exits inside a
-- `safepoint_scope`, as `main_thread` does; the collector does not wait for it.
-- `pausing` tells whether a pause has begun that has not retired all buffers yet.
-- `sweeping` are the regions whose sweep has begun. `lab` and `inserted` are not in
-- the source: the number of buffers a thread has had, and what was inserted.
structure Exits where
  store : Store
  place : Nat → ExitPlace
  safe : Nat → Bool
  pausing : Bool
  sweeping : List Nat
  lab : Nat → Nat
  inserted : List Insertion

inductive ExitEvent
  | store (e : StoreEvent)
  | beginPause
  | startSweep (index : Nat)
  | exit (thread : Nat) (safe : Bool)
  | freeRemaining (thread : Nat)
  | clear (thread : Nat)

-- The thread is in the body of `retire`.
def ExitPlace.isRetiring : ExitPlace → Bool
  | .checked | .returned | .unused | .topCleared | .endCleared | .startCleared => true
  | _ => false

-- It has found its buffer open, and others do so too.
def ExitPlace.isExposed : ExitPlace → Bool
  | .checked | .returned | .unused | .topCleared => true
  | _ => false

namespace Exits

def regionSwept (s : Exits) (thread : Nat) : Bool :=
  s.sweeping.contains (s.store.heap.regionIndex (s.store.tlab thread).start)

def tailSize (s : Exits) (thread : Nat) : Nat :=
  wrapSub (s.store.tlab thread).limit (s.store.tlab thread).top

-- What one `retire` of the thread's buffer puts on a free list.
def insertion (s : Exits) (thread : Nat) : List Insertion :=
  if (s.store.tlab thread).limit ≠ 0 ∧ s.tailSize thread ≠ 0 then
    [⟨thread, s.lab thread, s.regionSwept thread⟩]
  else []

-- The tails that a step of the store gives back: a pause retires all buffers.
def insertions (s : Exits) (e : StoreEvent) : List Insertion :=
  match e with
  | .retire thread => s.insertion thread
  | .initMark | .finalMark | .stop _ | .degenerate _ =>
      (List.range s.store.tlabs.length).flatMap s.insertion
  | _ => []

def Enabled (s : Exits) (e : StoreEvent) : Prop :=
  (∀ thread ∈ e.thread, s.place thread = .running) ∧ e.isPause = s.pausing ∧
    match e with
    | .sweep index => index ∈ s.sweeping ∨ (s.store.heap.regions index).toSweep = false
    | .skip index => index ∉ s.sweeping
    | _ => True

instance (s : Exits) : (e : StoreEvent) → Decidable (s.Enabled e)
  | .sweep _ => inferInstanceAs (Decidable (_ ∧ _ ∧ (_ ∨ _)))
  | .skip _ => inferInstanceAs (Decidable (_ ∧ _ ∧ _ ∉ _))
  | .register | .bump _ _ | .refill _ _ | .retire _ | .shared _ | .initMark | .mark _
  | .unmark _ | .finalMark | .cancel | .abort | .finishSweep | .stop _ | .degenerate _
  | .finishStopped => inferInstanceAs (Decidable (_ ∧ _ ∧ True))

def sweepingAfter (s : Exits) : StoreEvent → List Nat
  | .sweep index => s.sweeping.filter (· ≠ index)
  | _ => s.sweeping

def labAfter (s : Exits) : StoreEvent → Nat → Nat
  | .refill thread _ => Function.update s.lab thread (s.lab thread + 1)
  | _ => s.lab

def stepStore (mode : BarrierMode) (s : Exits) (e : StoreEvent) : Option Exits :=
  if s.Enabled e then
    (s.store.step mode e).map fun store =>
      { s with
        store := store
        pausing := false
        sweeping := s.sweepingAfter e
        lab := s.labAfter e
        inserted := s.inserted ++ s.insertions e }
  else none

def setPlace (s : Exits) (thread : Nat) (place : ExitPlace) : Exits :=
  { s with place := Function.update s.place thread place }

-- One store of the end of `retire`.
def clearNext (tlab : ThreadLocalAllocBuffer) :
    ExitPlace → Option (ThreadLocalAllocBuffer × ExitPlace)
  | .returned | .unused => some ({ tlab with top := 0 }, .topCleared)
  | .topCleared => some ({ tlab with limit := 0 }, .endCleared)
  | .endCleared => some ({ tlab with start := 0 }, .startCleared)
  | .startCleared => some ({ tlab with bitmap := none }, .exited)
  | _ => none

-- The world is stopped as soon as a pause begins, which a thread that exits in state 0 can
-- only see when it is done. A stopped world does not stop one that exits in a safe state.
def stepExit (s : Exits) : ExitEvent → Option Exits
  | .store _ => none
  | .beginPause =>
      if s.pausing = false ∧ s.store.phase ≠ .stopped ∧
          ∀ thread ∈ List.range s.store.tlabs.length,
            (s.place thread).isRetiring = true → s.safe thread = true then
        some { s with pausing := true }
      else none
  | .startSweep index =>
      if (s.store.phase = .sweeping ∨ s.store.phase = .stopped) ∧ index ∈ s.store.unswept ∧
          index ∉ s.sweeping ∧ (s.store.heap.regions index).toSweep = true then
        some { s with sweeping := index :: s.sweeping }
      else none
  | .exit thread safe =>
      if thread < s.store.tlabs.length ∧ s.place thread = .running ∧
          (safe = true ∨ s.store.phase ≠ .stopped ∧ s.pausing = false) then
        some { s.setPlace thread
            (if (s.store.tlab thread).limit ≠ 0 then .checked else .exited) with
          safe := Function.update s.safe thread safe }
      else none
  | .freeRemaining thread =>
      if s.place thread = .checked ∧ (s.safe thread = true ∨ s.store.phase ≠ .stopped) then
        if s.tailSize thread ≠ 0 then
          ((s.store.tlab thread).freeRemaining s.store.heap).toOption.map fun heap =>
            { s.setPlace thread .returned with
              store := { s.store with heap := heap }
              inserted := s.inserted ++ [⟨thread, s.lab thread, s.regionSwept thread⟩] }
        else some (s.setPlace thread .unused)
      else none
  | .clear thread =>
      if s.safe thread = true ∨ s.store.phase ≠ .stopped then
        (clearNext (s.store.tlab thread) (s.place thread)).map fun (tlab, place) =>
          { s.setPlace thread place with store := s.store.setTlab thread tlab s.store.heap }
      else none

def step (mode : BarrierMode) (s : Exits) : ExitEvent → Option Exits
  | .store e => s.stepStore mode e
  | e => s.stepExit e

end Exits

def exitMachine (c : HeapConfig) (mode : BarrierMode) : Machine Exits ExitEvent where
  init s := ∃ store, newStore c = .ok store ∧
    s = ⟨store, fun _ => .running, fun _ => false, false, [], fun _ => 0, []⟩
  step := Exits.step mode

namespace Exits

-- Every tail is inserted at most once and never into a region that is being
-- swept, and no byte is on the free lists twice.
structure ReturnedOnce (s : Exits) : Prop where
  once : (s.inserted.map fun i => (i.thread, i.lab)).Nodup
  unswept : ∀ i ∈ s.inserted, i.swept = false
  apart : s.store.freeBlocks.Pairwise Block.Apart

-- The retire of an exiting thread and that of a pause do not overlap: none begins while a
-- thread has found its buffer open and not yet set `end` to zero, and no thread with an
-- open buffer exits until the pause has retired it. The steps of the store are good as
-- before.
def ExitsApart (s : Exits) : ExitEvent → Prop
  | .store e => s.store.Roomy e
  | .beginPause =>
      ∀ thread ∈ List.range s.store.tlabs.length, (s.place thread).isExposed = false
  | .exit thread _ => s.pausing = true → (s.store.tlab thread).limit = 0
  | _ => True

instance (s : Exits) : (e : ExitEvent) → Decidable (s.ExitsApart e)
  | .store e => inferInstanceAs (Decidable (s.store.Roomy e))
  | .beginPause => inferInstanceAs (Decidable (∀ thread ∈ List.range _, _))
  | .exit _ _ => inferInstanceAs (Decidable (_ → _))
  | .startSweep _ | .freeRemaining _ | .clear _ => inferInstanceAs (Decidable True)

end Exits

end Rsgc.Storage
