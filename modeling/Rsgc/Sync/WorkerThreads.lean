import Mathlib.Data.Multiset.Range
import Rsgc.Lib.Census
import Rsgc.Lib.Machine

namespace Rsgc.Sync

-- What has come of a call of `run_task`: the ids that `work` was called with, those whose
-- call is over, and whether `run_task` has returned. `startedAt` is the counter that the
-- call found.
structure TaskRecord where
  numWorkers : Nat
  startedAt : Nat
  ids : List Nat
  finished : List Nat
  returned : Bool
deriving DecidableEq, Repr

-- Where a worker is in `worker_run_task`; an absent one is not created yet.
inductive WorkerStage
  | absent
  | waiting
  | woken
  | numbered (id : Nat)
  | working (task id : Nat)
  | worked
  | signalling
deriving DecidableEq, Repr

-- Where the coordinator is in `coordinator_distribute_task`; `left` counts the signals
-- that it still has to give before it waits.
inductive Coordinator
  | idle
  | storing (numWorkers : Nat)
  | signalling (left : Nat)
  | clearing
deriving DecidableEq, Repr

-- The task pointer is the number of the call of `run_task` that has written it.
structure WorkerTaskDispatcher where
  task : Option Nat
  started : Nat
  notFinished : Nat
  startSemaphore : Nat
  endSemaphore : Nat
deriving DecidableEq, Repr

structure WorkerThreads (τ : Type*) where
  createdWorkers : Nat
  activeWorkers : Nat
  dispatcher : WorkerTaskDispatcher
  coordinator : Coordinator
  stage : τ → WorkerStage
  calls : Nat
  record : Nat → TaskRecord

-- A step ends with an access to something shared. The first seven are steps of the
-- coordinator: a semaphore is signalled once for each unit.
inductive WorkerEvent (τ : Type*)
  | createWorker (t : τ)
  | setActiveWorkers (numWorkers : Nat)
  | runTask
  | storeNotFinished
  | signalStart
  | waitEnd
  | clearTask
  | waitStart (t : τ)
  | fetchId (t : τ)
  | readTask (t : τ)
  | workReturns (t : τ)
  | subNotFinished (t : τ)
  | signalEnd (t : τ)
deriving DecidableEq

namespace WorkerTaskDispatcher

def new : WorkerTaskDispatcher := ⟨none, 0, 0, 0, 0⟩

def waitStart (d : WorkerTaskDispatcher) : WorkerTaskDispatcher :=
  { d with startSemaphore := d.startSemaphore - 1 }

def signalStart (d : WorkerTaskDispatcher) : WorkerTaskDispatcher :=
  { d with startSemaphore := d.startSemaphore + 1 }

def waitEnd (d : WorkerTaskDispatcher) : WorkerTaskDispatcher :=
  { d with endSemaphore := d.endSemaphore - 1 }

def signalEnd (d : WorkerTaskDispatcher) : WorkerTaskDispatcher :=
  { d with endSemaphore := d.endSemaphore + 1 }

def addStarted (d : WorkerTaskDispatcher) : WorkerTaskDispatcher :=
  { d with started := (d.started + 1) % 2 ^ 64 }

def subNotFinished (d : WorkerTaskDispatcher) : WorkerTaskDispatcher :=
  { d with notFinished := (d.notFinished + (2 ^ 64 - 1)) % 2 ^ 64 }

@[simp] theorem subNotFinished_task (d : WorkerTaskDispatcher) :
    d.subNotFinished.task = d.task := by
  cases d
  rfl

end WorkerTaskDispatcher

namespace WorkerThreads

def new (τ : Type*) : WorkerThreads τ where
  createdWorkers := 0
  activeWorkers := 0
  dispatcher := .new
  coordinator := .idle
  stage := fun _ => .absent
  calls := 0
  record := fun _ => ⟨0, 0, [], [], false⟩

variable {τ : Type*} [DecidableEq τ]

-- A worker goes to another stage, and the dispatcher changes with it.
def move (s : WorkerThreads τ) (t : τ) (stage : WorkerStage) (d : WorkerTaskDispatcher) :
    WorkerThreads τ :=
  { s with stage := Function.update s.stage t stage, dispatcher := d }

def write (s : WorkerThreads τ) (k : Nat) (r : TaskRecord) : WorkerThreads τ :=
  { s with record := Function.update s.record k r }

-- The coordinator goes on, and the dispatcher changes with it.
def advance (s : WorkerThreads τ) (c : Coordinator) (d : WorkerTaskDispatcher) :
    WorkerThreads τ :=
  { s with coordinator := c, dispatcher := d }

def createWorker (s : WorkerThreads τ) (t : τ) : WorkerThreads τ :=
  { s.move t .waiting s.dispatcher with createdWorkers := s.createdWorkers + 1 }

def runTask (s : WorkerThreads τ) : WorkerThreads τ :=
  { (s.write s.calls ⟨s.activeWorkers, s.dispatcher.started, [], [], false⟩).advance
      (.storing s.activeWorkers) { s.dispatcher with task := some s.calls } with
    calls := s.calls + 1 }

def clearTask (s : WorkerThreads τ) : WorkerThreads τ :=
  (s.write (s.calls - 1) { s.record (s.calls - 1) with returned := true }).advance .idle
    { s.dispatcher with task := none }

def fetchId (s : WorkerThreads τ) (t : τ) : WorkerThreads τ :=
  s.move t (.numbered s.dispatcher.started) s.dispatcher.addStarted

-- Without a task the worker waits for the next one, and does not count as finished.
def readTask (s : WorkerThreads τ) (t : τ) (id : Nat) : WorkerThreads τ :=
  match s.dispatcher.task with
  | none => s.move t .waiting s.dispatcher
  | some k =>
      (s.move t (.working k id) s.dispatcher).write k
        { s.record k with ids := id :: (s.record k).ids }

def workReturns (s : WorkerThreads τ) (t : τ) (k id : Nat) : WorkerThreads τ :=
  (s.move t .worked s.dispatcher).write k
    { s.record k with finished := id :: (s.record k).finished }

-- The worker that sees the last one signals the end.
def subNotFinished (s : WorkerThreads τ) (t : τ) : WorkerThreads τ :=
  s.move t (if s.dispatcher.notFinished = 1 then .signalling else .waiting)
    s.dispatcher.subNotFinished

def step (s : WorkerThreads τ) : WorkerEvent τ → Option (WorkerThreads τ)
  | .createWorker t =>
      if s.coordinator = .idle ∧ s.stage t = .absent ∧ s.createdWorkers + 1 < 2 ^ 64 then
        some (s.createWorker t)
      else none
  | .setActiveWorkers numWorkers =>
      if s.coordinator = .idle ∧ numWorkers ≤ s.createdWorkers then
        some { s with activeWorkers := min s.createdWorkers numWorkers }
      else none
  | .runTask => if s.coordinator = .idle then some s.runTask else none
  | .storeNotFinished =>
      match s.coordinator with
      | .storing numWorkers =>
          some (s.advance (.signalling numWorkers)
            { s.dispatcher with notFinished := numWorkers })
      | _ => none
  | .signalStart =>
      match s.coordinator with
      | .signalling (left + 1) => some (s.advance (.signalling left) s.dispatcher.signalStart)
      | _ => none
  | .waitEnd =>
      if s.coordinator = .signalling 0 ∧ 0 < s.dispatcher.endSemaphore then
        some (s.advance .clearing s.dispatcher.waitEnd)
      else none
  | .clearTask => if s.coordinator = .clearing then some s.clearTask else none
  | .waitStart t =>
      if s.stage t = .waiting ∧ 0 < s.dispatcher.startSemaphore then
        some (s.move t .woken s.dispatcher.waitStart)
      else none
  | .fetchId t => if s.stage t = .woken then some (s.fetchId t) else none
  | .readTask t =>
      match s.stage t with
      | .numbered id => some (s.readTask t id)
      | _ => none
  | .workReturns t =>
      match s.stage t with
      | .working k id => some (s.workReturns t k id)
      | _ => none
  | .subNotFinished t => if s.stage t = .worked then some (s.subNotFinished t) else none
  | .signalEnd t =>
      if s.stage t = .signalling then some (s.move t .waiting s.dispatcher.signalEnd) else none

end WorkerThreads

def workerThreads (τ : Type*) [DecidableEq τ] : Machine (WorkerThreads τ) (WorkerEvent τ) where
  init s := s = WorkerThreads.new τ
  step := WorkerThreads.step

end Rsgc.Sync
