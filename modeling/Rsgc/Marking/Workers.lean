import Mathlib.Algebra.BigOperators.Fin
import Rsgc.Lib.Machine
import Rsgc.Marking.Task
import Rsgc.Marking.Terminator

namespace Rsgc.Marking

def SEGMENT_SIZE : Nat := 64

-- `SlotVisitor`: its segment `local` and its own work stealing queue, the
-- newest task first in both, and the counter of `defensive_push`.
structure SlotVisitor where
  segment : List MarkTask
  marked : Nat
  worker : List MarkTask
deriving DecidableEq, Repr

-- Where a worker is in `RootSet::process` and in `MarkingTask::run`: the places
-- of `pop`, the task in its hands and `try_terminate`.
inductive WorkerPhase
  | rooting (ops : List Op)
  | popLocal
  | popWorker
  | popGlobal
  | steal (tries : Nat)
  | running (ops : List Op)
  | terminating (place : TryTerminate)
  | stopped
deriving DecidableEq, Repr

def WorkerPhase.ops : WorkerPhase → List Op
  | rooting ops | running ops => ops
  | _ => []

def WorkerPhase.afterVerdict : Verdict → WorkerPhase
  | .wait place => terminating place
  | .resume => popLocal
  | .stop => stopped

structure MarkWorker where
  visitor : SlotVisitor
  phase : WorkerPhase
  work : Nat
deriving DecidableEq, Repr

-- The marking with `n` workers in a stopped world. `injector` has its oldest
-- task first; `nworkers` is that of the `Terminator`. `pushed` and `executed`
-- are not in the source: the tasks pushed and the tasks begun so far.
structure MarkingRun (n : Nat) where
  marks : Nat → Bool
  roots : List Nat
  injector : List MarkTask
  workers : Fin n → MarkWorker
  nworkers : Nat
  pushed : List MarkTask
  executed : List MarkTask

-- `root` and `rootInjector` visit a root with and without
-- `parallel_root_mark_tasks`. `pass` are `count` steps over null slots. `take`
-- and `steal` are `steal_batch_and_pop`, which takes any number of tasks.
inductive MarkingEvent (n : Nat)
  | root (w : Fin n) (ref : Nat)
  | rootInjector (ref : Nat)
  | start
  | step (w : Fin n)
  | pass (w : Fin n) (count : Nat)
  | take (w : Fin n) (task : MarkTask) (moved : List MarkTask)
  | steal (w victim : Fin n) (task : MarkTask) (moved : List MarkTask)
  | miss (w victim : Fin n)

namespace SlotVisitor

def defensivePush (v : SlotVisitor) : SlotVisitor × List Op :=
  if v.marked + 1 > 256 then
    ({ v with marked := 0 },
      if v.segment.length > 4 then [.spill (v.segment.length / 2)] else [])
  else ({ v with marked := v.marked + 1 }, [])

def push (v : SlotVisitor) (task : MarkTask) : SlotVisitor × List Op :=
  if v.segment.length < SEGMENT_SIZE then
    { v with segment := task :: v.segment }.defensivePush
  else ({ v with worker := task :: v.worker }, [])

def queued (v : SlotVisitor) : Multiset MarkTask := v.segment + v.worker

end SlotVisitor

-- What a worker changes with the operation it has in its hands.
structure Executed where
  marks : Nat → Bool
  visitor : SlotVisitor
  ops : List Op
  injected : List MarkTask
  pushed : List MarkTask

def SlotVisitor.execute (graph : Graph) (marks : Nat → Bool) (v : SlotVisitor) : Op → Executed
  | .scan obj part next stop =>
      if next < stop then
        ⟨marks, v, ((graph obj).ref ⟨part, next⟩).toList.map .visit ++
          [.scan obj part (next + 1) stop], [], []⟩
      else ⟨marks, v, [], [], []⟩
  | .visit ref =>
      if marks ref then ⟨marks, v, [], [], []⟩
      else ⟨Function.update marks ref true, v, [.push (.new ref false false)], [], []⟩
  | .push task =>
      let pushed := v.push task
      ⟨marks, pushed.1, pushed.2, [], [task]⟩
  | .spill target =>
      match v.segment with
      | task :: rest =>
          if v.segment.length > target then
            ⟨marks, { v with segment := rest }, [.spill target], [task], []⟩
          else ⟨marks, v, [], [], []⟩
      | [] => ⟨marks, v, [], [], []⟩

namespace MarkingRun

variable {n : Nat}

def set (s : MarkingRun n) (w : Fin n) (worker : MarkWorker) : MarkingRun n :=
  { s with workers := Function.update s.workers w worker }

def goto (s : MarkingRun n) (w : Fin n) (phase : WorkerPhase) : MarkingRun n :=
  s.set w { s.workers w with phase }

-- `do_task` begins; an assertion of it may fail.
def begin (graph : Graph) (s : MarkingRun n) (w : Fin n) (visitor : SlotVisitor)
    (task : MarkTask) : Option (MarkingRun n) :=
  (doTask graph task).map fun ops =>
    { s.set w { s.workers w with visitor, phase := .running ops } with
      executed := task :: s.executed }

def execute (graph : Graph) (s : MarkingRun n) (w : Fin n) (op : Op)
    (next : List Op → WorkerPhase) : MarkingRun n :=
  let done := (s.workers w).visitor.execute graph s.marks op
  { s.set w { s.workers w with visitor := done.visitor, phase := next done.ops } with
    marks := done.marks
    injector := s.injector ++ done.injected
    pushed := done.pushed ++ s.pushed }

-- `pop` has returned `None`: the end of the inner loop of `MarkingTask::run`
-- and, where it has found no task, the begin of `try_terminate`.
def noTask (s : MarkingRun n) (w : Fin n) : MarkingRun n :=
  if (s.workers w).work = 0 then s.goto w (.afterVerdict (TryTerminate.enter n))
  else s.set w { s.workers w with phase := .popLocal, work := 0 }

def terminate (s : MarkingRun n) (w : Fin n) (place : TryTerminate) : MarkingRun n :=
  let verdict := place.step s.nworkers
  { s.goto w (.afterVerdict verdict.1) with nworkers := verdict.2 }

-- The next step of a worker where it does not depend on what a queue of
-- another one or the injector gives it. `stride` is `mark_loop_stride`, which
-- the options keep at 32 or more.
def stepWorker (graph : Graph) (stride : Nat) (s : MarkingRun n) (w : Fin n) :
    Option (MarkingRun n) :=
  match (s.workers w).phase with
  | .rooting (op :: rest) => some (s.execute graph w op fun ops => .rooting (ops ++ rest))
  | .running (op :: rest) => some (s.execute graph w op fun ops => .running (ops ++ rest))
  | .rooting [] => none
  | .running [] =>
      let work := (s.workers w).work + 1
      some (s.set w
        { s.workers w with phase := .popLocal, work := if work = stride then 0 else work })
  | .popLocal =>
      match (s.workers w).visitor.segment with
      | task :: segment => s.begin graph w { (s.workers w).visitor with segment } task
      | [] => some (s.goto w .popWorker)
  | .popWorker =>
      match (s.workers w).visitor.worker with
      | task :: worker => s.begin graph w { (s.workers w).visitor with worker } task
      | [] => some (s.goto w .popGlobal)
  | .popGlobal =>
      if s.injector = [] then some (s.goto w (.steal (if n = 1 then 0 else 2 * n))) else none
  | .steal tries => if tries = 0 then some (s.noTask w) else none
  | .terminating place => some (s.terminate w place)
  | .stopped => none

def stepPass (graph : Graph) (s : MarkingRun n) (w : Fin n) (count : Nat) : Option (MarkingRun n) :=
  match (s.workers w).phase with
  | .running (.scan obj part next stop :: rest) =>
      if next + count ≤ stop ∧ (graph obj).Null part next count then
        some (s.goto w (.running (.scan obj part (next + count) stop :: rest)))
      else none
  | _ => none

-- `pop_global` where the injector is not empty
def stepTake (graph : Graph) (s : MarkingRun n) (w : Fin n) (task : MarkTask)
    (moved : List MarkTask) : Option (MarkingRun n) :=
  let batch := s.injector.take (moved.length + 1)
  if (s.workers w).phase = .popGlobal ∧ (task :: moved).isPerm batch then
    let visitor := (s.workers w).visitor
    begin graph { s with injector := s.injector.drop (moved.length + 1) } w
      { visitor with worker := moved ++ visitor.worker } task
  else none

-- One of the tries of `steal`; a stealer takes the oldest tasks of the queue.
def stepSteal (graph : Graph) (s : MarkingRun n) (w victim : Fin n) (task : MarkTask)
    (moved : List MarkTask) : Option (MarkingRun n) :=
  match (s.workers w).phase with
  | .steal (_ + 1) =>
      let queue := (s.workers victim).visitor.worker
      let kept := queue.length - (moved.length + 1)
      if victim ≠ w ∧ (task :: moved).isPerm (queue.drop kept) then
        let visitor := (s.workers w).visitor
        let robbed := { (s.workers victim).visitor with worker := queue.take kept }
        begin graph (s.set victim { s.workers victim with visitor := robbed }) w
          { visitor with worker := moved ++ visitor.worker } task
      else none
  | _ => none

def stepMiss (s : MarkingRun n) (w victim : Fin n) : Option (MarkingRun n) :=
  match (s.workers w).phase with
  | .steal (tries + 1) =>
      if victim ≠ w ∧ (s.workers victim).visitor.worker = [] then some (s.goto w (.steal tries))
      else none
  | _ => none

-- `RootSet::process` gives the roots to the workers in any way.
def stepRoot (s : MarkingRun n) (w : Fin n) (ref : Nat) : Option (MarkingRun n) :=
  if (s.workers w).phase = .rooting [] ∧ ref ∈ s.roots then
    some { s.goto w (.rooting [.visit ref]) with roots := s.roots.erase ref }
  else none

-- `MarkingContext::visit`, the visitor of the roots without parallel root tasks.
def stepRootInjector (s : MarkingRun n) (ref : Nat) : Option (MarkingRun n) :=
  if (∀ w, (s.workers w).phase = .rooting []) ∧ ref ∈ s.roots then
    let s := { s with roots := s.roots.erase ref }
    if s.marks ref then some s
    else
      let task := MarkTask.new ref false false
      some { s with
        marks := Function.update s.marks ref true
        injector := s.injector ++ [task]
        pushed := task :: s.pushed }
  else none

-- The roots have been processed and the workers start with a new `Terminator`.
def stepStart (s : MarkingRun n) : Option (MarkingRun n) :=
  if (∀ w, (s.workers w).phase = .rooting []) ∧ s.roots = [] then
    some { s with
      workers := fun w => { s.workers w with phase := .popLocal, work := 0 }
      nworkers := n }
  else none

def step (graph : Graph) (stride : Nat) (s : MarkingRun n) : MarkingEvent n → Option (MarkingRun n)
  | .root w ref => s.stepRoot w ref
  | .rootInjector ref => s.stepRootInjector ref
  | .start => s.stepStart
  | .step w => s.stepWorker graph stride w
  | .pass w count => s.stepPass graph w count
  | .take w task moved => s.stepTake graph w task moved
  | .steal w victim task moved => s.stepSteal graph w victim task moved
  | .miss w victim => s.stepMiss w victim

-- The tasks in all the queues.
def queued (s : MarkingRun n) : Multiset MarkTask :=
  s.injector + ∑ w, (s.workers w).visitor.queued

-- No root is left, all queues are empty and no worker has a task in its hands.
def Done (s : MarkingRun n) : Prop :=
  s.roots = [] ∧ s.queued = 0 ∧ ∀ w, (s.workers w).phase.ops = []

end MarkingRun

-- The marking of `STWMark::mark`: empty queues and the roots.
def stwMark (n stride : Nat) (graph : Graph) (roots : List Nat) :
    Machine (MarkingRun n) (MarkingEvent n) where
  init s := s = ⟨fun _ => false, roots, [], fun _ => ⟨⟨[], 0, []⟩, .rooting [], 0⟩, n, [], []⟩
  step := MarkingRun.step graph stride

-- The marking of `ConcMark::finish` from any tasks in the queues.
def finishMark (n stride : Nat) (graph : Graph) : Machine (MarkingRun n) (MarkingEvent n) where
  init s := s.roots = [] ∧ s.nworkers = n ∧ s.executed = [] ∧
    (s.pushed : Multiset MarkTask) = s.queued ∧
    ∀ w, (s.workers w).phase = .popLocal ∧ (s.workers w).work = 0
  step := MarkingRun.step graph stride

end Rsgc.Marking
