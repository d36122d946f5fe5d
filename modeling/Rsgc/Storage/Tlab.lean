import Rsgc.Storage.FreeSet

namespace Rsgc.Storage

-- `bitmap` is the region whose object start bitmap the buffer points to.
structure ThreadLocalAllocBuffer where
  start : Nat
  top : Nat
  limit : Nat
  bitmap : Option Nat
deriving DecidableEq, Repr

def wrapSub (a b : Nat) : Nat := wrap (a + usizeRange - b)

namespace Heap

def regionIndex (h : Heap) (object : Nat) : Nat :=
  (object - h.memStart) >>> h.opts.regionSizeBytesShift

def setStartBit (h : Heap) (index addr : Nat) : Heap :=
  h.setRegion index ((h.regions index).setStartBit addr)

-- The header words of a new object, written by `Thread::allocate`.
def writeHeader (h : Heap) (addr size : Nat) : Heap :=
  h.setRegion (h.regionIndex addr) ((h.regions (h.regionIndex addr)).writeHeader addr size)

-- `write_bytes(mem, 0, size)`
def zeroFill (h : Heap) (addr size : Nat) : Heap :=
  let index := h.regionIndex addr
  let r := h.regions index
  h.setRegion index
    { r with words := fun a => if addr ≤ a ∧ a < addr + size then ⟨0, true⟩ else r.words a }

-- `mark_live`
def markLive (h : Heap) (addr : Nat) : Heap :=
  let index := h.regionIndex addr
  if (h.regions index).isHumongousStart then h else h.setStartBit index addr

end Heap

namespace ThreadLocalAllocBuffer

def new : ThreadLocalAllocBuffer := ⟨0, 0, 0, none⟩

-- The fast path; the subtraction wraps like the one of the source.
def allocate (tlab : ThreadLocalAllocBuffer) (h : Heap) (size : Nat) :
    Option (Nat × ThreadLocalAllocBuffer × Heap) :=
  if size ≤ wrapSub tlab.limit tlab.top then
    match tlab.bitmap with
    | none => none
    | some index =>
        some (tlab.top, { tlab with top := tlab.top + size }, h.setStartBit index tlab.top)
  else none


def initialize_ (h : Heap) (start top limit : Nat) : ThreadLocalAllocBuffer :=
  ⟨start, top, limit, some (h.regionIndex start)⟩

-- `free_remaining` of a buffer that is in use
def freeRemaining (tlab : ThreadLocalAllocBuffer) (h : Heap) : Except Panic Heap :=
  let index := h.regionIndex tlab.start
  if wrapSub tlab.limit tlab.top ≠ 0 then do
    let r ← (h.regions index).addFree tlab.top (wrapSub tlab.limit tlab.top)
    pure (h.setRegion index r)
  else pure h

def retire (tlab : ThreadLocalAllocBuffer) (h : Heap) :
    Except Panic (ThreadLocalAllocBuffer × Heap) :=
  if tlab.limit ≠ 0 then do
    let h ← tlab.freeRemaining h
    pure (new, h)
  else pure (tlab, h)

end ThreadLocalAllocBuffer

-- `max_tlab_size` of a thread, as `Thread::register` chooses it
def threadTlabSize (opts : HeapOptions) : Nat :=
  if 0 < opts.tlabSize then opts.tlabSize else opts.maxTlabSize

-- The request that `alloc_inside_tlab_slow` makes. Neither bound depends on the
-- size of the object.
def labRequest (opts : HeapOptions) : AllocRequest :=
  .new .forLab opts.minTlabSize (threadTlabSize opts)

def sharedRequest (size : Nat) : AllocRequest := .new .shared size size

namespace Heap

-- `alloc_inside_tlab_slow` after the old buffer was retired: the buffer starts
-- with the object of `size` bytes. A failed request leaves the buffer retired.
def refill (h : Heap) (size : Nat) :
    Except Panic (Option (Nat × ThreadLocalAllocBuffer) × Heap) := do
  let result ← h.allocate (labRequest h.opts)
  match result.1.mem with
  | none => pure (none, result.2)
  | some mem =>
      let actual := result.1.req.actualSize
      let h := result.2.zeroFill mem actual
      let tlab := ThreadLocalAllocBuffer.initialize_ h mem (mem + size) (mem + actual)
      pure (some (mem, tlab), h.setStartBit (h.regionIndex mem) mem)

-- `allocate_outside_tlab`
def allocateOutsideTlab (h : Heap) (size : Nat) : Except Panic (Option Nat × Heap) := do
  let result ← h.allocate (sharedRequest size)
  match result.1.mem with
  | none => pure (none, result.2)
  | some mem => pure (some mem, result.2.markLive mem)

end Heap

end Rsgc.Storage
