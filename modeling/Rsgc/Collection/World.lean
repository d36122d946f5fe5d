import Rsgc.Lib.Machine
import Rsgc.Marking.Work
import Rsgc.Storage.Region

namespace Rsgc.Collection

open Marking Storage

-- The features `gc-satb` and `gc-incremental-update`.
inductive Build
  | satb
  | incrementalUpdate
deriving DecidableEq, Repr

structure Config where
  build : Build
  maxSatbBufferSize : Nat
  numRegions : Nat

-- `span` are the regions of the humongous object that starts here.
structure Region where
  typ : RegionState
  toSweep : Bool
  span : Nat
deriving DecidableEq, Repr

namespace Region

def holdsObjects (r : Region) : Bool := r.typ == .regular || r.typ == .humongousStart

def isAvailable (r : Region) : Bool :=
  r.typ == .emptyUncommited || r.typ == .emptyCommited || r.typ == .trash

-- The regions that become trash with it.
def extent (r : Region) : Nat := if r.typ = .humongousStart then r.span else 1

end Region

inductive DegenPoint
  | unset
  | outsideCycle
  | concurrentMark
  | concurrentSweep
deriving DecidableEq, Repr

-- What follows a `flush_ssb`: the barrier again, or the thread is removed.
inductive Flush
  | barrier (obj : Nat)
  | leave
deriving DecidableEq, Repr

-- Where a mutator is: in its own code, between the test and the clearing of the
-- mark bit, in `flush_ssb` between two entries and at one that it will push,
-- behind the barrier with the store to do, and flushed but not yet removed.
inductive Place
  | free
  | clearing (obj : Nat)
  | flushing (todo : List Nat) (next : Flush)
  | pushing (obj : Nat) (todo : List Nat) (next : Flush)
  | storing (obj : Nat)
  | leaving
deriving DecidableEq, Repr

namespace Place

-- Inside the barrier and the flush there is no safepoint.
def parked : Place → Bool
  | free | leaving => true
  | _ => false

def ownCode : Place → Bool
  | free | storing _ => true
  | _ => false

end Place

-- A `Thread` with the objects its stack refers to. `satbMarkQueue` has its
-- newest entry first.
structure Mutator where
  roots : List Nat
  satbMarkQueue : List Nat
  cmInProgress : Bool
  place : Place
deriving DecidableEq, Repr

inductive Cycle
  | concurrent
  | degenerated
  | full
deriving DecidableEq, Repr

-- What the collector does: nothing, mark beside the mutators, drain the marking
-- in a pause, sweep the regions that are left.
inductive Phase
  | idle
  | marking
  | draining (cycle : Cycle)
  | sweeping (cycle : Cycle) (todo : List Nat)
deriving DecidableEq, Repr

def Phase.stopped : Phase → Bool
  | draining _ | sweeping .degenerated _ | sweeping .full _ => true
  | idle | marking | sweeping .concurrent _ => false

-- The heap with its threads and the collector. `work` is all that the marking
-- still has to do, wherever it is queued. Not in the source: `finalized`, the
-- objects finalized so far, `born` and `upgraded`, what has been allocated and
-- what `upgrade` has returned since the last initial mark, `cleared`, the objects
-- whose mark bit a barrier has cleared since then, and `scanned`, the slots read
-- of each since its bit was cleared last.
structure World where
  graph : Graph
  objects : List Nat
  home : Nat → Nat
  regions : Nat → Region
  marks : Nat → Bool
  work : List Op
  threads : List Mutator
  weak : Nat → Option Nat
  finalizers : List Nat
  concurrentMark : Bool
  cancelled : Bool
  degenPoint : DegenPoint
  phase : Phase
  finalized : List Nat
  born : List Nat
  upgraded : List Nat
  cleared : List Nat
  scanned : List (Nat × Slot)

-- An allocation of a thread. `weak` is the target of a new weak reference, `span`
-- the regions of a humongous object, and `black` says where the incremental
-- update build marks it all the same.
structure NewObject where
  obj : Nat
  object : Object
  region : Nat
  span : Option Nat
  weak : Option Nat
  finalize : Bool
  black : Bool

inductive Event
  | load (t obj : Nat) (slot : Slot)
  | writeBarrier (t obj : Nat)
  | store (t obj : Nat) (slot : Slot) (value : Option Nat)
  | allocate (t : Nat) (new : NewObject)
  | drop (t obj : Nat)
  | upgrade (t weak : Nat)
  | attach
  | detach (t : Nat)
  | step (t : Nat)
  | mark (i : Nat)
  | initMark
  | finalMark
  | finishMark
  | sweep (r : Nat)
  | skip (r : Nat)
  | finish
  | cancel
  | abort
  | full
  | degenerate

theorem traced_nil : ∀ entry ∈ ([] : List (Slot × Nat)), (⟨false, 0, none⟩ : Shape).Traced entry.1 :=
  List.forall_mem_nil _

-- The memory of a freed object has no slots.
def freeObject : Object := ⟨⟨false, 0, none⟩, [], traced_nil⟩

def isTask : Op → Bool
  | .push _ => true
  | _ => false

-- A root is visited in a pause: `test_and_set` of its mark bit and a task for it.
def visitRoot (s : (Nat → Bool) × List Op) (ref : Nat) : (Nat → Bool) × List Op :=
  if s.1 ref then s else (Function.update s.1 ref true, .push (.new ref false false) :: s.2)

namespace Mutator

-- `try_enqueue`, and `slow_write_barrier` where the buffer is full
def enqueue (c : Config) (m : Mutator) (obj : Nat) : Mutator :=
  if m.satbMarkQueue.length < c.maxSatbBufferSize then
    { m with satbMarkQueue := obj :: m.satbMarkQueue, place := .storing obj }
  else { m with place := .flushing m.satbMarkQueue (.barrier obj) }

def rawWriteBarrier (c : Config) (marks : Nat → Bool) (m : Mutator) (obj : Nat) : Mutator :=
  if m.cmInProgress then
    match c.build with
    | .satb => if marks obj then { m with place := .storing obj } else m.enqueue c obj
    | .incrementalUpdate => { m with place := if marks obj then .clearing obj else .storing obj }
  else { m with place := .storing obj }

end Mutator

namespace World

def roots (s : World) : List Nat := s.threads.flatMap Mutator.roots

def entries (s : World) : List Nat := s.threads.flatMap Mutator.satbMarkQueue

def Reaches (s : World) (o : Nat) : Prop := s.graph.Reaches s.roots o

def setThread (s : World) (t : Nat) (m : Mutator) : World := { s with threads := s.threads.set t m }

-- All registered threads are at safepoints.
def Parked (s : World) : Prop := ∀ m ∈ s.threads, m.place.parked = true

instance (s : World) : Decidable s.Parked := inferInstanceAs (Decidable (∀ m ∈ s.threads, _))

-- The marking workers have returned; what is left are tasks in queues.
def Queued (s : World) : Prop := ∀ op ∈ s.work, isTask op = true

instance (s : World) : Decidable s.Queued := inferInstanceAs (Decidable (∀ op ∈ s.work, _))

-- A step of a thread that the collector has not stopped.
def mutate (s : World) (t : Nat) (f : Mutator → Option World) : Option World :=
  if s.phase.stopped then none else s.threads[t]?.bind f

def stepLoad (s : World) (t obj : Nat) (slot : Slot) : Option World :=
  s.mutate t fun m =>
    if m.place.ownCode ∧ obj ∈ m.roots then
      ((s.graph obj).ref slot).map fun ref => s.setThread t { m with roots := ref :: m.roots }
    else none

def stepWriteBarrier (c : Config) (s : World) (t obj : Nat) : Option World :=
  s.mutate t fun m =>
    if m.place = .free ∧ obj ∈ m.roots then
      some (s.setThread t (m.rawWriteBarrier c s.marks obj))
    else none

def stepStore (s : World) (t obj : Nat) (slot : Slot) (value : Option Nat) : Option World :=
  s.mutate t fun m =>
    if h : (s.graph obj).Traced slot then
      if m.place = .storing obj ∧ obj ∈ m.roots ∧ ∀ ref ∈ value, ref ∈ m.roots then
        some { s.setThread t { m with place := .free } with
          graph := Function.update s.graph obj ((s.graph obj).store slot h value) }
      else none
    else none

-- Where the free set lets the object be put, and what becomes of the regions.
def place (c : Config) (regions : Nat → Region) (r : Nat) : Option Nat → Option (Nat → Region)
  | none =>
      if r < c.numRegions ∧ ¬(regions r).toSweep ∧
          ((regions r).typ = .regular ∨ (regions r).isAvailable) then
        some (Function.update regions r ⟨.regular, false, 1⟩)
      else none
  | some span =>
      if 0 < span ∧ r + span ≤ c.numRegions ∧
          ∀ i ∈ List.range span, (regions (r + i)).isAvailable then
        some fun i =>
          if i = r then ⟨.humongousStart, false, span⟩
          else if r ≤ i ∧ i < r + span then ⟨.humongousCont, false, 1⟩
          else regions i
      else none

-- With `gc-satb` a new object is marked.
def stepAllocate (c : Config) (s : World) (t : Nat) (new : NewObject) : Option World :=
  s.mutate t fun m =>
    if m.place = .free ∧ new.obj ∉ s.objects ∧ (∀ entry ∈ new.object.refs, entry.2 ∈ m.roots) ∧
        ∀ target ∈ new.weak, target ∈ m.roots then
      (place c s.regions new.region new.span).map fun regions =>
        { s.setThread t { m with roots := new.obj :: m.roots } with
          graph := Function.update s.graph new.obj new.object
          objects := new.obj :: s.objects
          home := Function.update s.home new.obj new.region
          regions
          marks := if c.build = .satb ∨ new.black then Function.update s.marks new.obj true
            else s.marks
          weak := Function.update s.weak new.obj new.weak
          finalizers := if new.finalize then new.obj :: s.finalizers else s.finalizers
          born := new.obj :: s.born
          cleared := s.cleared.filter fun obj => obj ≠ new.obj }
    else none

def stepDrop (s : World) (t obj : Nat) : Option World :=
  s.mutate t fun m =>
    if m.place.ownCode ∨ m.place = .leaving then
      some (s.setThread t { m with roots := m.roots.erase obj })
    else none

def stepUpgrade (s : World) (t weak : Nat) : Option World :=
  s.mutate t fun m =>
    if m.place.ownCode ∧ weak ∈ m.roots then
      (s.weak weak).map fun target =>
        { s.setThread t { m with roots := target :: m.roots } with upgraded := target :: s.upgraded }
    else none

-- `Thread::register`
def stepAttach (s : World) : Option World :=
  if s.phase.stopped then none
  else some { s with threads := s.threads ++ [⟨[], [], s.concurrentMark, .free⟩] }

-- `remove_current_thread` begins
def stepDetach (s : World) (t : Nat) : Option World :=
  s.mutate t fun m =>
    if m.place = .free then
      some (s.setThread t { m with place := .flushing m.satbMarkQueue .leave })
    else none

-- With `gc-incremental-update` the flush does not look at the mark bit.
def flushes (c : Config) (s : World) (obj : Nat) : Bool :=
  !s.marks obj || c.build == .incrementalUpdate

-- The next step of a thread inside the barrier or the flush.
def stepThread (c : Config) (s : World) (t : Nat) : Option World :=
  s.mutate t fun m =>
    match m.place with
    | .clearing obj =>
        if c.build = .incrementalUpdate then
          some { s.setThread t (m.enqueue c obj) with
            marks := Function.update s.marks obj false
            cleared := obj :: s.cleared
            scanned := s.scanned.filter fun entry => entry.1 ≠ obj }
        else none
    | .flushing (obj :: todo) next =>
        some (s.setThread t { m with
          place := if s.flushes c obj then .pushing obj todo next else .flushing todo next })
    | .pushing obj todo next =>
        some { s.setThread t { m with place := .flushing todo next } with
          work := .push (.new obj false false) :: s.work }
    | .flushing [] (.barrier obj) =>
        some (s.setThread t ({ m with satbMarkQueue := [] }.rawWriteBarrier c s.marks obj))
    | .flushing [] .leave => some (s.setThread t { m with satbMarkQueue := [], place := .leaving })
    | .leaving => if m.roots = [] then some { s with threads := s.threads.eraseIdx t } else none
    | .free | .storing _ => none

-- The slot that an operation reads now.
def reads : Op → List (Nat × Slot)
  | .scan obj part next stop => if next < stop then [(obj, ⟨part, next⟩)] else []
  | _ => []

-- A marking worker takes one step with one of the operations.
def stepMark (s : World) (i : Nat) : Option World :=
  if s.phase = .marking ∨ s.phase = .draining .concurrent ∨ s.phase = .draining .degenerated ∨
      s.phase = .draining .full then
    s.work[i]?.bind fun op =>
      (op.step s.graph s.marks).map fun done =>
        { s with marks := done.1, work := done.2 ++ s.work.eraseIdx i
                 scanned := reads op ++ s.scanned }
  else none

-- `RootSet::process` in a pause
def collectRoots (s : World) : World :=
  let visited := s.roots.foldl visitRoot (s.marks, s.work)
  { s with marks := visited.1, work := visited.2 }

-- The loop over the threads in `ConcMark::finish`
def flushThreads (c : Config) (s : World) : World :=
  { s with
    work := ((s.entries.filter (s.flushes c)).map fun obj => .push (.new obj false false)) ++ s.work
    threads := s.threads.map fun m => { m with satbMarkQueue := [], cmInProgress := false } }

def toggleWriteBarrier (s : World) (value : Bool) : World :=
  { s with threads := s.threads.map fun m => { m with cmInProgress := value } }

-- `ConcMark::cancel`
def cancelMark (s : World) : World :=
  { s with threads := s.threads.map fun m => { m with satbMarkQueue := [], cmInProgress := false } }

-- `prepare_gc`
def prepareGc (s : World) : World := { s with marks := fun _ => false }

-- `WeakReference::process`
def processWeak (s : World) : World :=
  { s with weak := fun w => if s.marks w then (s.weak w).filter s.marks else s.weak w }

def finalize (s : World) : World :=
  { s with finalizers := s.finalizers.filter fun obj => s.marks obj
           finalized := (s.finalizers.filter fun obj => !s.marks obj) ++ s.finalized }

def prepareUnsweptRegions (s : World) : World :=
  { s with regions := fun r =>
      if (s.regions r).holdsObjects then { s.regions r with toSweep := true } else s.regions r }

def stepInitMark (s : World) : Option World :=
  if s.phase = .idle ∧ s.Parked then
    some { collectRoots (s.prepareGc.toggleWriteBarrier true) with
      concurrentMark := true, degenPoint := .outsideCycle, phase := .marking
      born := [], upgraded := [], cleared := [], scanned := [] }
  else none

def stepFinalMark (c : Config) (s : World) : Option World :=
  if s.phase = .marking ∧ s.Parked ∧ s.Queued then
    some { flushThreads c s.collectRoots with
      concurrentMark := false, phase := .draining .concurrent }
  else none

-- What follows the marking in each of the collections.
def stepFinishMark (c : Config) (s : World) : Option World :=
  let todo := List.range c.numRegions
  if s.work = [] then
    match s.phase with
    | .draining .degenerated =>
        some { s.processWeak with concurrentMark := false, phase := .sweeping .degenerated todo }
    | .draining cycle =>
        some { s.processWeak.finalize.prepareUnsweptRegions with phase := .sweeping cycle todo }
    | _ => none
  else none

-- The region is to be swept, holds objects, and this one of them is not marked.
def frees (s : World) (r obj : Nat) : Bool :=
  (s.regions r).toSweep && (s.regions r).holdsObjects && s.home obj == r && !s.marks obj

-- A region in which no object is marked becomes trash.
def sweptRegions (s : World) (r : Nat) : Nat → Region :=
  let region := s.regions r
  let swept := Function.update s.regions r { region with toSweep := false }
  if region.toSweep ∧ region.holdsObjects ∧
      ¬∃ obj ∈ s.objects, s.home obj = r ∧ s.marks obj = true then
    fun i => if r ≤ i ∧ i < r + region.extent then { swept i with typ := .trash } else swept i
  else swept

-- `SweepGarbageClosure::heap_region_do` with `sweep_region`,
-- `trash_humongous_region_at` and `make_trash`.
def sweepRegion (s : World) (r : Nat) : World :=
  { s with
    regions := s.sweptRegions r
    objects := s.objects.filter fun obj => !s.frees r obj
    graph := fun obj => if s.frees r obj then freeObject else s.graph obj }

def stepSweep (s : World) (r : Nat) : Option World :=
  match s.phase with
  | .sweeping cycle todo =>
      if r ∈ todo then some { s.sweepRegion r with phase := .sweeping cycle (todo.erase r) }
      else none
  | _ => none

-- A worker of the concurrent sweep sees the cancellation and leaves a region.
def stepSkip (s : World) (r : Nat) : Option World :=
  match s.phase with
  | .sweeping .concurrent todo =>
      if r ∈ todo ∧ s.cancelled then
        some { s with phase := .sweeping .concurrent (todo.erase r) }
      else none
  | _ => none

def stepFinish (s : World) : Option World :=
  match s.phase with
  | .sweeping cycle [] =>
      let degenPoint :=
        if cycle = .concurrent ∧ s.cancelled then .concurrentSweep else s.degenPoint
      some { s with phase := .idle, degenPoint }
  | _ => none

def stepCancel (s : World) : Option World :=
  if s.phase.stopped then none else some { s with cancelled := true }

-- The concurrent mark has been cancelled.
def stepAbort (s : World) : Option World :=
  if s.phase = .marking ∧ s.cancelled ∧ s.Queued then
    some { s with phase := .idle, degenPoint := .concurrentMark }
  else none

-- `FullGC::do_collect`
def stepFull (s : World) : Option World :=
  if s.phase = .idle ∧ s.Parked then
    some { s.prepareGc.collectRoots with
      cancelled := false, degenPoint := .outsideCycle, phase := .draining .full }
  else none

-- `DegeneratedGC::collect` up to its marking, or to its sweep
def stepDegenerate (c : Config) (s : World) : Option World :=
  let sweep := Phase.sweeping .degenerated (List.range c.numRegions)
  if s.phase = .idle ∧ s.Parked then
    let begun := { s with cancelled := false, degenPoint := .outsideCycle }
    match s.degenPoint with
    | .unset => some begun
    | .outsideCycle =>
        some { begun.prepareGc.cancelMark.collectRoots with phase := .draining .degenerated }
    | .concurrentMark =>
        if s.concurrentMark then
          some { flushThreads c begun.collectRoots with phase := .draining .degenerated }
        else some { begun.processWeak with phase := sweep }
    | .concurrentSweep => some { begun.processWeak with phase := sweep }
  else none

def step (c : Config) (s : World) : Event → Option World
  | .load t obj slot => s.stepLoad t obj slot
  | .writeBarrier t obj => s.stepWriteBarrier c t obj
  | .store t obj slot value => s.stepStore t obj slot value
  | .allocate t new => s.stepAllocate c t new
  | .drop t obj => s.stepDrop t obj
  | .upgrade t weak => s.stepUpgrade t weak
  | .attach => s.stepAttach
  | .detach t => s.stepDetach t
  | .step t => s.stepThread c t
  | .mark i => s.stepMark i
  | .initMark => s.stepInitMark
  | .finalMark => s.stepFinalMark c
  | .finishMark => s.stepFinishMark c
  | .sweep r => s.stepSweep r
  | .skip r => s.stepSkip r
  | .finish => s.stepFinish
  | .cancel => s.stepCancel
  | .abort => s.stepAbort
  | .full => s.stepFull
  | .degenerate => s.stepDegenerate c

-- No collection has begun. A reference leads from an object to objects.
structure Fresh (s : World) : Prop where
  phase : s.phase = .idle
  concurrentMark : s.concurrentMark = false
  cancelled : s.cancelled = false
  degenPoint : s.degenPoint = .outsideCycle
  work : s.work = []
  threads : ∀ m ∈ s.threads, m.satbMarkQueue = [] ∧ m.cmInProgress = false ∧ m.place = .free
  objects : ∀ o, s.Reaches o → o ∈ s.objects
  free : ∀ o, o ∉ s.objects → s.graph o = freeObject
  cleared : s.cleared = []

end World

-- The controller runs cycles of any kind beside any mutators.
def controller (c : Config) : Machine World Event where
  init := World.Fresh
  step := World.step c

-- What belongs to cycles that nothing cancels.
def Event.ofCycle (upgrades : Bool) : Event → Bool
  | .upgrade .. => upgrades
  | .cancel | .skip _ | .abort | .full | .degenerate => false
  | _ => true

-- Concurrent cycles one after the other beside mutators that use weak
-- references or do not.
def concurrentCycles (c : Config) (upgrades : Bool) : Machine World Event where
  init := World.Fresh
  step s e := if e.ofCycle upgrades then s.step c e else none

-- A pause from a state on, until the mutators go on.
def pause (c : Config) (begun : World) : Machine World Event where
  init s := s = begun
  step s e := if s.phase.stopped then s.step c e else none

end Rsgc.Collection
