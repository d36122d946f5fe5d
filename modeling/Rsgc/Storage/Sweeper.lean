import Rsgc.Storage.FreeSet

namespace Rsgc.Storage

-- `is_marked_range` on the mark bitmap, which has one bit for 16 bytes.
def isMarkedRange (marks : Nat → Bool) (start stop : Nat) : Bool :=
  (List.range ((stop - start) / 16)).any fun i => marks (start + 16 * i)

structure SweepState where
  region : HeapRegion
  startOfGap : Nat
  used : Nat
  free : Nat

namespace SweepState

-- The gap that ends at `stop` becomes one entry of the free list.
def closeGap (s : SweepState) (stop : Nat) : Except Panic SweepState :=
  if s.startOfGap ≠ stop then do
    let size := stop - s.startOfGap
    let r ← s.region.addFree s.startOfGap size
    pure { s with
      region := { r with largestFreeListEntry := max r.largestFreeListEntry size }
      free := s.free + size }
  else pure s

def keep (s : SweepState) (addr size : Nat) : SweepState where
  region := s.region.setStartBit addr
  startOfGap := addr + size
  used := s.used + size
  free := s.free

end SweepState

-- `while begin != end`. The walk reads headers of the region before the sweep;
-- `fuel` bounds the number of blocks.
def sweepLoop (words : Nat → Header) (marks : Nat → Bool) (stop : Nat) :
    Nat → Nat → SweepState → Except Panic SweepState
  | fuel, addr, s =>
      if addr = stop then pure s
      else match fuel with
        | 0 => throw .endlessSweep
        | fuel + 1 =>
            let header := words addr
            if header.isFree ∨ marks addr = false then
              sweepLoop words marks stop fuel (addr + header.size) s
            else do
              let s ← s.closeGap addr
              sweepLoop words marks stop fuel (addr + header.size) (s.keep addr header.size)

def sweepStart (r : HeapRegion) : SweepState where
  region := { r with
    freeList := r.freeList.clear
    largestFreeListEntry := 0
    objectStartBitmap := fun _ => false }
  startOfGap := r.bottom
  used := 0
  free := 0

-- The walk is left out when nothing in the region is marked.
def sweepBlocks (opts : HeapOptions) (marks : Nat → Bool) (r : HeapRegion) :
    Except Panic SweepState :=
  if isMarkedRange marks r.bottom (r.bottom + opts.regionSizeBytes) then
    sweepLoop r.words marks (r.bottom + opts.regionSizeBytes) opts.regionSizeBytes r.bottom
      (sweepStart r)
  else pure (sweepStart r)

-- `sweep_region`; the result is true when nothing in the region survives.
def sweepRegion (opts : HeapOptions) (marks : Nat → Bool) (r : HeapRegion) :
    Except Panic (Bool × HeapRegion) := do
  let s ← sweepBlocks opts marks r
  let s ← s.closeGap (r.bottom + opts.regionSizeBytes)
  ensure (s.used ≠ 0 ∨ s.free ≠ 0) Panic.emptySweep
  pure (s.startOfGap = r.bottom, { s.region with used := s.used })

namespace Heap

-- The loop runs from the last region of the object down to its first.
def trashHumongousRegionAt (h : Heap) (start : Nat) : Except Panic Heap := do
  let size := ((h.regions start).words (h.regions start).bottom).size
  let required := h.opts.requiredRegions size
  ensure (start + required ≤ h.numRegions) Panic.regionIndexOutOfBounds
  pure ((List.range' start required).reverse.foldl
    (fun h index => h.setRegion index (h.regions index).makeTrash) h)

def clearToSweep (h : Heap) (index : Nat) : Heap :=
  h.setRegion index { h.regions index with toSweep := false }

-- `SweepGarbageClosure::heap_region_do` on a region that waits to be swept
def sweepPending (h : Heap) (marks : Nat → Bool) (index : Nat) : Except Panic Heap :=
  let r := h.regions index
  if r.isHumongousStart then
    if marks r.bottom = false then h.trashHumongousRegionAt index else pure h
  else if r.isRegular then do
    let swept ← sweepRegion h.opts marks r
    pure (h.setRegion index (if swept.1 then swept.2.makeTrash else swept.2))
  else pure h

def sweepRegionDo (h : Heap) (marks : Nat → Bool) (index : Nat) : Except Panic Heap :=
  if (h.regions index).toSweep then (h.clearToSweep index).sweepPending marks index else pure h

def sweepRegionsDo (h : Heap) (marks : Nat → Bool) : List Nat → Except Panic Heap
  | [] => pure h
  | index :: rest => do
      let h ← h.sweepRegionDo marks index
      h.sweepRegionsDo marks rest

-- `PrepareUnsweptRegions::heap_region_do`
def prepareUnsweptRegion (h : Heap) (index : Nat) : Heap :=
  let r := h.regions index
  if r.isRegular ∨ r.isHumongousStart then
    (h.setRegion index { r with toSweep := true }).setFreeSet (h.freeSet.setBit index false)
  else h

def prepareUnsweptRegions (h : Heap) : Heap :=
  (List.range h.numRegions).foldl prepareUnsweptRegion h

end Heap

end Rsgc.Storage
