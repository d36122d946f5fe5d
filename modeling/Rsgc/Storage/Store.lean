import Rsgc.Lib.Machine
import Rsgc.Storage.Region.Layout
import Rsgc.Storage.Sweeper
import Rsgc.Storage.Tlab

namespace Rsgc.Storage

-- The build of the collector: `gc-satb` or `gc-incremental-update`.
inductive BarrierMode
  | satb
  | incrementalUpdate
deriving DecidableEq, Repr

-- How far the collector is: between cycles, in a concurrent mark, in a
-- concurrent sweep, or in a collection that stops the world.
inductive GcPhase
  | idle
  | marking
  | sweeping
  | stopped
deriving DecidableEq, Repr

-- The storage side of the collector with all its threads. `unswept` are the
-- regions that the running sweep still has to visit. `objects` and `fresh` are
-- not in the source: they record which blocks were handed out as objects and
-- not freed since, and which of these are younger than the last init-mark.
structure Store where
  heap : Heap
  tlabs : List ThreadLocalAllocBuffer
  marks : Nat → Bool
  phase : GcPhase
  cancelled : Bool
  unswept : List Nat
  objects : List Space
  fresh : List Space

-- The steps of the mutators, each under the heap lock or local to its thread,
-- and of the collector. `stop` starts a full and `degenerate` a degenerated
-- collection; both end with `finishStopped`.
inductive StoreEvent
  | register
  | bump (thread size : Nat)
  | refill (thread size : Nat)
  | retire (thread : Nat)
  | shared (size : Nat)
  | initMark
  | mark (addr : Nat)
  | unmark (addr : Nat)
  | finalMark
  | sweep (index : Nat)
  | skip (index : Nat)
  | cancel
  | abort
  | finishSweep
  | stop (marks : Nat → Bool)
  | degenerate (marks : Nat → Bool)
  | finishStopped

-- `Heap::is_live`
def Heap.isLive (h : Heap) (addr : Nat) : Bool :=
  if h.memStart ≤ addr ∧ addr < h.memStart + h.opts.maxHeapSize then
    let r := h.regions (h.regionIndex addr)
    r.isHumongousStart || r.isHumongousCont || r.objectStartBitmap addr
  else false

def retireAll : List ThreadLocalAllocBuffer → Heap →
    Except Panic (List ThreadLocalAllocBuffer × Heap)
  | [], h => pure ([], h)
  | tlab :: rest, h => do
      let retired ← tlab.retire h
      let others ← retireAll rest retired.2
      pure (retired.1 :: others.1, others.2)

namespace Store

def tlab (s : Store) (thread : Nat) : ThreadLocalAllocBuffer := s.tlabs.getD thread .new

def setTlab (s : Store) (thread : Nat) (tlab : ThreadLocalAllocBuffer) (heap : Heap) : Store :=
  { s with tlabs := s.tlabs.set thread tlab, heap := heap }

-- What `Thread::allocate` does with the memory it got: the header is written and,
-- with `gc-satb`, the object is marked.
def place (mode : BarrierMode) (s : Store) (mem size : Nat) : Store :=
  { s with
    heap := s.heap.writeHeader mem size
    marks := if mode = .satb then Function.update s.marks mem true else s.marks
    objects := ⟨mem, size, .object⟩ :: s.objects
    fresh := if s.phase = .marking ∨ s.phase = .sweeping then ⟨mem, size, .object⟩ :: s.fresh
      else s.fresh }

def retireTlabs (s : Store) : Except Panic Store := do
  let retired ← retireAll s.tlabs s.heap
  pure { s with tlabs := retired.1, heap := retired.2 }

-- `PrepareUnsweptRegions`, and the list of regions the sweep has to visit.
def prepareSweep (s : Store) (phase : GcPhase) : Store :=
  { s with
    heap := s.heap.prepareUnsweptRegions
    unswept := List.range s.heap.numRegions
    phase := phase }

-- An object stays an object while the heap says that it is live.
def sweepIndex (s : Store) (index : Nat) : Except Panic Store := do
  let heap ← s.heap.sweepRegionDo s.marks index
  pure { s with
    heap := heap
    unswept := s.unswept.erase index
    objects := s.objects.filter fun o => heap.isLive o.addr }

def finish (s : Store) : Except Panic Store := do
  let heap ← s.heap.rebuild
  pure { s with heap := heap, phase := .idle }

-- The sizes that `Thread::allocate` can ask for.
def SizeOk (size : Nat) : Prop := 0 < size ∧ 16 ∣ size

-- When the source can take the step.
def Enabled (mode : BarrierMode) (s : Store) : StoreEvent → Prop
  | .register => s.phase ≠ .stopped
  | .bump thread size => s.phase ≠ .stopped ∧ thread < s.tlabs.length ∧ SizeOk size
  | .refill thread size =>
      s.phase ≠ .stopped ∧ thread < s.tlabs.length ∧ SizeOk size ∧
        (s.tlab thread).limit = 0 ∧ size ≤ threadTlabSize s.heap.opts
  | .retire thread => s.phase ≠ .stopped ∧ thread < s.tlabs.length
  | .shared size => s.phase ≠ .stopped ∧ SizeOk size
  | .initMark => s.phase = .idle ∧ s.cancelled = false
  | .mark _ => s.phase = .marking
  | .unmark _ => s.phase = .marking ∧ mode ≠ .satb
  | .finalMark => s.phase = .marking ∧ s.cancelled = false
  | .sweep index => (s.phase = .sweeping ∨ s.phase = .stopped) ∧ index ∈ s.unswept
  | .skip index => s.phase = .sweeping ∧ s.cancelled = true ∧ index ∈ s.unswept
  | .cancel => s.phase ≠ .stopped
  | .abort => (s.phase = .marking ∨ s.phase = .sweeping ∧ s.unswept = []) ∧ s.cancelled = true
  | .finishSweep => s.phase = .sweeping ∧ s.unswept = [] ∧ s.cancelled = false
  | .stop _ => s.phase = .idle
  | .degenerate _ => s.phase = .idle
  | .finishStopped => s.phase = .stopped ∧ s.unswept = []

instance (mode : BarrierMode) (s : Store) (e : StoreEvent) : Decidable (s.Enabled mode e) := by
  cases e <;> unfold Enabled <;> try unfold SizeOk
  all_goals infer_instance

def perform (mode : BarrierMode) (s : Store) : StoreEvent → Except Panic Store
  | .register => pure { s with tlabs := s.tlabs ++ [.new] }
  | .bump thread size =>
      match (s.tlab thread).allocate s.heap size with
      | none => pure s
      | some (mem, tlab, heap) => pure ((s.setTlab thread tlab heap).place mode mem size)
  | .refill thread size => do
      let result ← s.heap.refill size
      match result.1 with
      | none => pure { s with heap := result.2 }
      | some (mem, tlab) => pure ((s.setTlab thread tlab result.2).place mode mem size)
  | .retire thread => do
      let retired ← (s.tlab thread).retire s.heap
      pure (s.setTlab thread retired.1 retired.2)
  | .shared size => do
      let result ← s.heap.allocateOutsideTlab size
      match result.1 with
      | none => pure { s with heap := result.2 }
      | some mem => pure (place mode { s with heap := result.2 } mem size)
  | .initMark => do
      let s ← s.retireTlabs
      pure { s with marks := fun _ => false, phase := .marking, fresh := [] }
  | .mark addr => pure { s with marks := Function.update s.marks addr true }
  | .unmark addr => pure { s with marks := Function.update s.marks addr false }
  | .finalMark => do
      let s ← s.retireTlabs
      pure (s.prepareSweep .sweeping)
  | .sweep index => s.sweepIndex index
  | .skip index => pure { s with unswept := s.unswept.erase index }
  | .cancel => pure { s with cancelled := true }
  | .abort => pure { s with phase := .idle }
  | .finishSweep => s.finish
  | .stop marks => do
      let s ← s.retireTlabs
      pure (prepareSweep { s with cancelled := false, marks := marks, fresh := [] } .stopped)
  -- the marks are those of the cycle it takes over, completed, or new ones
  | .degenerate marks => do
      let s ← s.retireTlabs
      pure { s with
        cancelled := false
        marks := marks
        fresh := []
        unswept := List.range s.heap.numRegions
        phase := .stopped }
  | .finishStopped => s.finish

def step (mode : BarrierMode) (s : Store) (e : StoreEvent) : Option Store :=
  if s.Enabled mode e then (s.perform mode e).toOption else none

end Store

-- The heap that `Heap::new` builds, before its first `rebuild`.
def newHeap (c : HeapConfig) : Heap where
  opts := c.opts
  memStart := c.memStart
  regions := fun i => HeapRegion.new c.opts (c.geometry.log_eq ▸ c.geometry.shift_lt) i
    (c.memStart + c.opts.regionSizeBytes * i) (i < c.commited)
  freeSet := ⟨fun _ => false, 0, 0, c.opts.regionCount, 0, 0⟩
  commited := min c.commited c.opts.regionCount * c.opts.regionSizeBytes
  bytesAllocatedSinceGcStart := 0

def newStore (c : HeapConfig) : Except Panic Store := do
  let heap ← (newHeap c).rebuild
  pure ⟨heap, [], fun _ => false, .idle, false, [], [], []⟩

def storeMachine (c : HeapConfig) (mode : BarrierMode) : Machine Store StoreEvent where
  init := fun s => newStore c = .ok s
  step := Store.step mode

end Rsgc.Storage
