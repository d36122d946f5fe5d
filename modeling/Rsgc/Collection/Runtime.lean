import Rsgc.Collection.Degenerated.Coherent
import Rsgc.Lib.Simulation
import Rsgc.Storage.Store.States

namespace Rsgc.Collection

open Marking Storage

def configOf (c : HeapConfig) (build : Build) : Config :=
  ⟨build, c.opts.maxSatbBufferSize, c.opts.regionCount⟩

def Build.barrierMode : Build → BarrierMode
  | .satb => .satb
  | .incrementalUpdate => .incrementalUpdate

-- What the memory knows of the phase. While a pause drains the marking no region
-- has been prepared yet.
def Phase.gcPhase : Phase → GcPhase
  | .idle => .idle
  | .marking | .draining _ => .marking
  | .sweeping .concurrent _ => .sweeping
  | .sweeping .degenerated _ | .sweeping .full _ => .stopped

def Phase.todo : Phase → List Nat
  | .sweeping _ todo => todo
  | .idle | .marking | .draining _ => []

-- What `Thread::allocate` asks of the memory, one after the other.
inductive Request
  | bump (size : Nat)
  | retire
  | refill (size : Nat)
  | shared (size : Nat)
deriving DecidableEq, Repr

def Request.event (t : Nat) : Request → StoreEvent
  | bump size => .bump t size
  | retire => .retire t
  | refill size => .refill t size
  | shared size => .shared size

-- The objects, the threads and the collector together with the memory. The buffer
-- of a thread stands at its place in `tlabs`, and `blocks` are the blocks handed
-- out as objects and not freed since.
structure Runtime where
  world : World
  heap : Heap
  tlabs : List ThreadLocalAllocBuffer
  blocks : List Space

-- `request` is a request of a thread for memory; the object it is for is placed
-- when there is memory.
inductive RuntimeEvent
  | world (e : Event)
  | request (t : Nat) (req : Request) (new : NewObject)

-- The object in its memory. Only `allocate_contiguous` starts a humongous region.
def NewObject.at (c : HeapConfig) (heap : Heap) (new : NewObject) (b : Space) : NewObject :=
  { new with
    obj := b.addr
    region := c.regionIndex b.addr
    span := if (heap.regions (c.regionIndex b.addr)).typ = .humongousStart then
      some (c.opts.requiredRegions b.size) else none }

namespace Runtime

-- The memory as the collector finds it.
def store (r : Runtime) : Store where
  heap := r.heap
  tlabs := r.tlabs
  marks := r.world.marks
  phase := r.world.phase.gcPhase
  cancelled := r.world.cancelled
  unswept := r.world.phase.todo
  objects := r.blocks
  fresh := []

def update (world : World) (s : Store) : Runtime := ⟨world, s.heap, s.tlabs, s.objects⟩

-- The thread is about to leave the list of the threads.
def leaves (r : Runtime) (t : Nat) : Bool :=
  (r.world.threads[t]?).any fun m => m.place = .leaving

-- What the step does to the memory: the pauses retire the buffers, `Thread::register`
-- and `remove_current_thread` bring and take one, and the sweep prepares the regions,
-- visits them and rebuilds the free set at its end.
def respond (r : Runtime) (mode : BarrierMode) : Event → Except Panic Store
  | .attach => r.store.perform mode .register
  | .detach t => r.store.perform mode (.retire t)
  | .step t => pure (if r.leaves t then { r.store with tlabs := r.tlabs.eraseIdx t } else r.store)
  | .initMark | .finalMark | .full | .degenerate => r.store.retireTlabs
  | .finishMark =>
      pure (if r.world.phase = .draining .degenerated then r.store
        else r.store.prepareSweep r.store.phase)
  | .sweep i => r.store.sweepIndex i
  | .finish =>
      if r.world.phase = .sweeping .concurrent [] ∧ r.world.cancelled then pure r.store
      else r.store.finish
  | _ => pure r.store

-- The thread is in its own code, where it can ask for memory.
def Asks (r : Runtime) (t : Nat) : Prop :=
  r.world.phase.stopped = false ∧ (r.world.threads[t]?).any fun m => m.place = .free

instance (r : Runtime) (t : Nat) : Decidable (r.Asks t) := inferInstanceAs (Decidable (_ ∧ _))

-- The block that the memory has given.
def given (r : Runtime) (s : Store) : Option Space :=
  if r.blocks.length < s.objects.length then s.objects.head? else none

def receive (c : HeapConfig) (build : Build) (r : Runtime) (t : Nat) (new : NewObject) (s : Store) :
    Option Runtime :=
  match r.given s with
  | none => some (update r.world s)
  | some b =>
      (r.world.step (configOf c build) (.allocate t (new.at c s.heap b))).map fun world =>
        update world s

def step (c : HeapConfig) (build : Build) (r : Runtime) : RuntimeEvent → Option Runtime
  | .world (.allocate ..) => none
  | .world e =>
      (r.world.step (configOf c build) e).bind fun world =>
        ((r.respond build.barrierMode e).toOption).map fun s => update world s
  | .request t req new =>
      if r.Asks t then
        (r.store.step build.barrierMode (req.event t)).bind (r.receive c build t new)
      else none

-- A heap that has just been made, before its first thread.
structure Created (c : HeapConfig) (r : Runtime) : Prop where
  world : r.world.Created
  threads : r.world.threads = []
  heap : ∃ s, newStore c = .ok s ∧ r.heap = s.heap
  tlabs : r.tlabs = []
  blocks : r.blocks = []

end Runtime

def runtime (c : HeapConfig) (build : Build) : Machine Runtime RuntimeEvent where
  init := Runtime.Created c
  step := Runtime.step c build

end Rsgc.Collection
