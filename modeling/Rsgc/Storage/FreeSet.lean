import Rsgc.Storage.Region

namespace Rsgc.Storage

inductive AllocType
  | forLab
  | shared
deriving DecidableEq, Repr

structure AllocRequest where
  minSize : Nat
  requestedSize : Nat
  actualSize : Nat
  typ : AllocType
deriving DecidableEq, Repr

namespace AllocRequest

def new (typ : AllocType) (minSize requestedSize : Nat) : AllocRequest :=
  ⟨minSize, requestedSize, 0, typ⟩

def forLab (req : AllocRequest) : Bool := req.typ == .forLab

def size (req : AllocRequest) : Nat := req.requestedSize

def setActualSize (req : AllocRequest) (size : Nat) : AllocRequest := { req with actualSize := size }

end AllocRequest

structure RegionFreeSet where
  mutatorFreeBitmap : Nat → Bool
  mutatorLeftmost : Nat
  mutatorRightmost : Nat
  max : Nat
  capacity : Nat
  used : Nat

namespace RegionFreeSet

def clear (fs : RegionFreeSet) : RegionFreeSet :=
  { fs with
    mutatorFreeBitmap := fun _ => false
    mutatorLeftmost := fs.max
    mutatorRightmost := 0
    capacity := 0
    used := 0 }

-- The difference as an integer; `usize` cannot hold it when it is negative.
def available (fs : RegionFreeSet) : Int := (fs.capacity : Int) - fs.used

def isMutatorFree (fs : RegionFreeSet) (index : Nat) : Bool := fs.mutatorFreeBitmap index

def setBit (fs : RegionFreeSet) (index : Nat) (value : Bool) : RegionFreeSet :=
  { fs with mutatorFreeBitmap := Function.update fs.mutatorFreeBitmap index value }

def increaseUsed (fs : RegionFreeSet) (count : Nat) : RegionFreeSet :=
  { fs with used := fs.used + count }

-- The first loop of `adjust_bounds`, with the distance to `max` as its bound.
def skipRight (free : Nat → Bool) (max : Nat) : Nat → Nat → Nat
  | 0, left => left
  | fuel + 1, left =>
      if left < max ∧ free left = false then skipRight free max fuel (left + 1) else left

def skipLeft (free : Nat → Bool) : Nat → Nat
  | 0 => 0
  | right + 1 => if free (right + 1) then right + 1 else skipLeft free right

def adjustBounds (fs : RegionFreeSet) : RegionFreeSet :=
  { fs with
    mutatorLeftmost :=
      skipRight fs.mutatorFreeBitmap fs.max (fs.max - fs.mutatorLeftmost) fs.mutatorLeftmost
    mutatorRightmost := skipLeft fs.mutatorFreeBitmap fs.mutatorRightmost }

def recomputeBounds (fs : RegionFreeSet) : RegionFreeSet :=
  adjustBounds { fs with mutatorRightmost := fs.max - 1, mutatorLeftmost := 0 }

def mutatorCount (fs : RegionFreeSet) : Nat :=
  ((List.range fs.max).filter fs.mutatorFreeBitmap).length

def touchesBounds (fs : RegionFreeSet) (num : Nat) : Bool :=
  num == fs.mutatorLeftmost || num == fs.mutatorRightmost

end RegionFreeSet

structure Heap where
  opts : HeapOptions
  memStart : Nat
  regions : Nat → HeapRegion
  freeSet : RegionFreeSet
  commited : Nat
  bytesAllocatedSinceGcStart : Nat

-- What an allocation gives back besides the heap.
structure AllocResult where
  mem : Option Nat
  req : AllocRequest
  inNewRegion : Bool

namespace Heap

def numRegions (h : Heap) : Nat := h.opts.regionCount

def setRegion (h : Heap) (index : Nat) (r : HeapRegion) : Heap :=
  { h with regions := Function.update h.regions index r }

def setFreeSet (h : Heap) (fs : RegionFreeSet) : Heap := { h with freeSet := fs }

def notifyMutatorAlloc (h : Heap) (bytes : Nat) : Heap :=
  { h with bytesAllocatedSinceGcStart := h.bytesAllocatedSinceGcStart + bytes }

-- `do_commit` of the region at `index`, when it is `EmptyUncommited`
def commitIfNeeded (h : Heap) (index : Nat) : Heap :=
  if (h.regions index).typ = .emptyUncommited then
    { h with commited := h.commited + (h.regions index).size }
  else h

def allocCapacity (h : Heap) (index : Nat) : Nat := (h.regions index).allocCapacity h.opts

-- One round of the loop of `rebuild`.
def rebuildRegion (h : Heap) (index : Nat) (fs : RegionFreeSet) : Except Panic RegionFreeSet :=
  if (h.regions index).isAllocAllowed ∨ (h.regions index).isTrash then
    if h.allocCapacity index = 0 then pure fs
    else do
      ensure (fs.used ≤ fs.capacity + h.allocCapacity index) Panic.overUsed
      pure (RegionFreeSet.setBit { fs with capacity := fs.capacity + h.allocCapacity index }
        index true)
  else pure fs

def rebuildLoop (h : Heap) : List Nat → RegionFreeSet → Except Panic RegionFreeSet
  | [], fs => pure fs
  | index :: rest, fs => do
      let fs ← h.rebuildRegion index fs
      h.rebuildLoop rest fs

def rebuild (h : Heap) : Except Panic Heap := do
  let fs ← h.rebuildLoop (List.range h.numRegions) h.freeSet.clear
  pure (h.setFreeSet fs.recomputeBounds)

def tryRecycleTrashed (h : Heap) (index : Nat) : Heap :=
  if (h.regions index).isTrash then h.setRegion index (h.regions index).recycle else h

def regionAllocate (h : Heap) (index size : Nat) : Except Panic (Option Nat × Heap) := do
  let result ← (h.regions index).allocate size
  pure (result.1, (h.commitIfNeeded index).setRegion index result.2)

-- The elastic branch of `try_allocate_in`; the size it settles on comes first.
def elasticAllocate (h : Heap) (index : Nat) (req : AllocRequest) :
    Except Panic (Nat × Option Nat × Heap) :=
  let free := alignDown (h.regions index).peekFree 16
  let size := min req.size free
  if req.minSize ≤ size then do
    let result ← h.regionAllocate index size
    ensure (result.1 ≠ none) Panic.elasticAllocation
    pure (size, result)
  else pure (size, none, h)

def allocateIn (h : Heap) (index : Nat) (req : AllocRequest) :
    Except Panic (Nat × Option Nat × Heap) :=
  if h.opts.elasticTlab ∧ req.forLab then h.elasticAllocate index req
  else do
    let result ← h.regionAllocate index req.size
    pure (req.size, result)

-- "Region cannot afford this or future allocations. Retire it."
def retireRegion (h : Heap) (index : Nat) : Heap :=
  let waste := (h.regions index).free
  let h := if 0 < waste then (h.setFreeSet (h.freeSet.increaseUsed waste)).notifyMutatorAlloc waste
    else h
  let fs := h.freeSet.setBit index false
  h.setFreeSet (if fs.touchesBounds index then fs.adjustBounds else fs)

-- The accounting of a successful allocation of `size` bytes at `mem`.
def recordAllocation (h : Heap) (index : Nat) (req : AllocRequest) (size mem : Nat) : Heap :=
  let h := h.setFreeSet (h.freeSet.increaseUsed size)
  if req.forLab then h else h.setRegion index ((h.regions index).setStartBit mem)

def tryAllocateIn (h : Heap) (index : Nat) (req : AllocRequest) :
    Except Panic (AllocResult × Heap) := do
  ensure ((h.regions index).toSweep = false) Panic.regionToSweep
  ensure (h.allocCapacity index ≠ 0) Panic.regionFull
  let h := h.tryRecycleTrashed index
  let inNewRegion := (h.regions index).isEmpty
  let result ← h.allocateIn index req
  match result with
  | (_, none, h) => pure (⟨none, req, inNewRegion⟩, h.retireRegion index)
  | (size, some mem, h) =>
      let h := h.recordAllocation index req size mem
      pure (⟨some mem, req.setActualSize size, inNewRegion⟩,
        if h.allocCapacity index = 0 then h.retireRegion index else h)

-- The scan of `allocate_single`. Its range is fixed before the first round.
def allocateSingleLoop (h : Heap) (req : AllocRequest) (inNewRegion : Bool) :
    List Nat → Except Panic (AllocResult × Heap)
  | [] => pure (⟨none, req, inNewRegion⟩, h)
  | index :: rest =>
      if h.freeSet.isMutatorFree index then do
        let result ← h.tryAllocateIn index req
        match result.1.mem with
        | some _ => pure result
        | none => result.2.allocateSingleLoop req result.1.inNewRegion rest
      else h.allocateSingleLoop req inNewRegion rest

-- `leftmost..=rightmost`
def boundsRange (fs : RegionFreeSet) : List Nat :=
  List.range' fs.mutatorLeftmost (fs.mutatorRightmost + 1 - fs.mutatorLeftmost)

def allocateSingle (h : Heap) (req : AllocRequest) : Except Panic (AllocResult × Heap) :=
  h.allocateSingleLoop req false (boundsRange h.freeSet)

def canAllocateFrom (h : Heap) (index : Nat) : Bool :=
  (h.regions index).isEmpty || (h.regions index).isTrash

-- The search loop of `allocate_contiguous`; `fuel` bounds the distance of
-- `last` to `max`.
def findRun (h : Heap) (num : Nat) : Nat → Nat → Nat → Option Nat
  | 0, _, _ => none
  | fuel + 1, beg, last =>
      if h.freeSet.max ≤ last then none
      else if h.freeSet.isMutatorFree last = false ∨ h.canAllocateFrom last = false then
        h.findRun num fuel (last + 1) (last + 1)
      else if last - beg + 1 = num then some beg
      else h.findRun num fuel beg (last + 1)

-- One region of a contiguous run that starts at `beg`.
def claimHumongous (h : Heap) (beg index : Nat) : Heap :=
  let h := h.tryRecycleTrashed index
  let r := h.regions index
  let r := if index = beg then r.makeHumongousStart else r.makeHumongousCont
  let h := (h.commitIfNeeded index).setRegion index { r with used := h.opts.regionSizeBytes }
  h.setFreeSet (h.freeSet.setBit index false)

def claimRun (h : Heap) (beg num : Nat) : Heap :=
  (List.range' beg num).foldl (fun h index => h.claimHumongous beg index) h

-- What follows the claiming loop in `allocate_contiguous`.
def finishContiguous (h : Heap) (req : AllocRequest) (beg num : Nat) : AllocResult × Heap :=
  let fs := h.freeSet
  let fs := if beg = fs.mutatorLeftmost ∨ beg + num - 1 = fs.mutatorRightmost then fs.adjustBounds
    else fs
  let h := h.setFreeSet (fs.increaseUsed (h.opts.regionPayloadSizeBytes * num))
  let remainder := req.size &&& h.opts.regionSizeBytesMask
  let h := if remainder ≠ 0 then h.notifyMutatorAlloc (h.opts.regionSizeBytes - remainder) else h
  (⟨some (h.regions beg).bottom, req.setActualSize req.size, true⟩, h)

def allocateContiguous (h : Heap) (req : AllocRequest) : AllocResult × Heap :=
  let num := h.opts.requiredRegions req.size
  if h.freeSet.mutatorCount < num then (⟨none, req, true⟩, h)
  else match h.findRun num (h.freeSet.max + 1) h.freeSet.mutatorLeftmost
      h.freeSet.mutatorLeftmost with
    | none => (⟨none, req, true⟩, h)
    | some beg => (h.claimRun beg num).finishContiguous req beg num

-- `RegionFreeSet::allocate`
def allocate (h : Heap) (req : AllocRequest) : Except Panic (AllocResult × Heap) :=
  if h.opts.humongousThresholdBytes < req.size then pure (h.allocateContiguous req)
  else h.allocateSingle req

end Heap

end Rsgc.Storage
