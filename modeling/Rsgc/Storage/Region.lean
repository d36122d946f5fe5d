import Rsgc.Storage.FreeList.Valid

namespace Rsgc.Storage

inductive RegionState
  | regular
  | humongousStart
  | humongousCont
  | emptyUncommited
  | emptyCommited
  | trash
deriving DecidableEq, Repr

-- What a header in the heap decodes to: the result of `heap_size` and whether
-- the vtable tag is zero, as it is for a free block.
structure Header where
  size : Nat
  isFree : Bool
deriving DecidableEq, Repr

-- `words` is the memory of the region, seen as headers.
structure HeapRegion where
  typ : RegionState
  index : Nat
  used : Nat
  objectStartBitmap : Nat → Bool
  bottom : Nat
  limit : Nat
  freeList : FreeList
  largestFreeListEntry : Nat
  toSweep : Bool
  words : Nat → Header

namespace HeapRegion

def size (r : HeapRegion) : Nat := r.limit - r.bottom

def isEmpty (r : HeapRegion) : Bool := r.typ == .emptyUncommited || r.typ == .emptyCommited

def isAllocAllowed (r : HeapRegion) : Bool := r.typ == .regular || r.isEmpty

def isTrash (r : HeapRegion) : Bool := r.typ == .trash

def isRegular (r : HeapRegion) : Bool := r.typ == .regular

def isHumongousStart (r : HeapRegion) : Bool := r.typ == .humongousStart

def isHumongousCont (r : HeapRegion) : Bool := r.typ == .humongousCont

def free (r : HeapRegion) : Nat := if r.isEmpty then r.size else r.freeList.free

def peekFree (r : HeapRegion) : Nat := r.freeList.peekFree

-- `RegionFreeSet::alloc_capacity`
def allocCapacity (opts : HeapOptions) (r : HeapRegion) : Nat :=
  if r.isTrash then opts.regionSizeBytes else r.free

def recycle (r : HeapRegion) : HeapRegion :=
  { r with
    freeList := r.freeList.clear
    typ := if r.isTrash then .emptyCommited else r.typ
    objectStartBitmap := fun _ => false
    used := 0
    largestFreeListEntry := r.size }

def new (opts : HeapOptions) (h : opts.regionSizeLog2 < 64) (index start : Nat)
    (isCommited : Bool) : HeapRegion :=
  HeapRegion.recycle
    { typ := if isCommited then .emptyCommited else .emptyUncommited
      index := index
      used := 0
      objectStartBitmap := fun _ => false
      bottom := start
      limit := start + opts.regionSizeBytes
      freeList := FreeList.new opts h
      largestFreeListEntry := 0
      toSweep := false
      words := fun _ => ⟨0, true⟩ }

-- `free_list.add`, which writes the header of the block into the block itself.
def addFree (r : HeapRegion) (addr size : Nat) : Except Panic HeapRegion := do
  let freeList ← r.freeList.add addr size
  pure { r with
    freeList := freeList
    words := Function.update r.words addr ⟨storedSize size, true⟩ }

def writeHeader (r : HeapRegion) (addr size : Nat) : HeapRegion :=
  { r with words := Function.update r.words addr ⟨storedSize size, false⟩ }

def setStartBit (r : HeapRegion) (addr : Nat) : HeapRegion :=
  { r with objectStartBitmap := Function.update r.objectStartBitmap addr true }

-- Committing the memory of an `EmptyUncommited` region only changes its state.
def makeRegularAllocation (r : HeapRegion) : Except Panic HeapRegion := do
  let filled ← if r.isEmpty then r.addFree r.bottom r.size else pure r
  pure { filled with typ := .regular }

-- The tail of a block that is larger than the request goes back to the list.
def splitEntry (r : HeapRegion) (entry : Entry) (size : Nat) :
    Except Panic (Option Nat × HeapRegion) :=
  if size < entry.size then do
    let filled ← r.addFree (entry.addr + size) (entry.size - size)
    pure (some entry.addr, { filled with used := r.used + (entry.size - (entry.size - size)) })
  else pure (some entry.addr, { r with used := r.used + entry.size })

def allocate (r : HeapRegion) (size : Nat) : Except Panic (Option Nat × HeapRegion) := do
  let r ← r.makeRegularAllocation
  let found := r.freeList.allocate size
  match found.1 with
  | none => pure (none, { r with freeList := found.2 })
  | some entry => HeapRegion.splitEntry { r with freeList := found.2 } entry size

def makeHumongousStart (r : HeapRegion) : HeapRegion :=
  { r with typ := .humongousStart, freeList := r.freeList.clear }

def makeHumongousCont (r : HeapRegion) : HeapRegion :=
  { r with typ := .humongousCont, freeList := r.freeList.clear }

def makeTrash (r : HeapRegion) : HeapRegion := { r with typ := .trash }

end HeapRegion

end Rsgc.Storage
