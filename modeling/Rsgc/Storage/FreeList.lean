import Mathlib.Algebra.Order.BigOperators.Group.List
import Mathlib.Logic.Function.Basic
import Rsgc.Storage.Options

namespace Rsgc.Storage

inductive Panic
  | emptyBlock
  | bucketOutOfBounds
  | regionToSweep
  | regionFull
  | elasticAllocation
  | overUsed
  | regionIndexOutOfBounds
  | emptySweep
  | endlessSweep
deriving DecidableEq, Repr

-- `SizeTag::MAX_SIZE_TAG`: 13 bits of a size in units of 16 bytes.
def MAX_SIZE_TAG : Nat := (2 ^ 13 - 1) * 16

-- What `heap_size` reads back from a header that was written for `size`: the
-- size tag counts whole units of 16 bytes, larger sizes are stored in full.
def storedSize (size : Nat) : Nat := if size ≤ MAX_SIZE_TAG then size / 16 * 16 else size

-- `size_of::<Entry>()`
def ENTRY_SIZE : Nat := 16

-- A free block together with the size in its header.
structure Entry where
  addr : Nat
  size : Nat
deriving DecidableEq, Repr

def leadingZeros32 (value : Nat) : Nat := if value = 0 then 32 else 31 - Nat.log2 value

def roundUpToPowerOfTwo32 (value : Nat) : Nat :=
  let value := if 0 < value then value - 1 else value
  1 <<< (32 - leadingZeros32 value)

def roundDownToPowerOfTwo32 (value : Nat) : Nat :=
  if 0x80000000 < value then 0x80000000
  else
    let result := roundUpToPowerOfTwo32 value
    if value < result then result >>> 1 else result

-- `usize::trailing_zeros`
def whichPowerOfTwo (value : Nat) : Nat :=
  ((List.range 64).find? fun i => value.testBit i).getD 64

-- The cast to `u32` drops the upper half of the size.
def bucketIndexForSize (size : Nat) : Nat :=
  whichPowerOfTwo (roundDownToPowerOfTwo32 (size % 2 ^ 32))

-- `heads i` is the chain of entries that starts at `free_list_heads[i]`.
structure RawFreeList where
  buckets : Nat
  heads : Nat → List Entry
  tails : Nat → Option Nat
  biggest : Nat
  count : Nat
  freeBytes : Nat

namespace RawFreeList

def new (opts : HeapOptions) : RawFreeList where
  buckets := opts.regionSizeLog2 + 1
  heads := fun _ => []
  tails := fun _ => none
  biggest := 0
  count := 0
  freeBytes := 0

def link (l : RawFreeList) (index addr size : Nat) : RawFreeList where
  buckets := l.buckets
  heads := Function.update l.heads index (⟨addr, storedSize size⟩ :: l.heads index)
  tails := if l.heads index = [] then Function.update l.tails index (some addr) else l.tails
  biggest := max l.biggest index
  count := l.count + 1
  freeBytes := l.freeBytes + size

-- `add`; a block that cannot hold an `Entry` gets a filler header only.
def add (l : RawFreeList) (addr size : Nat) : Except Panic RawFreeList := do
  ensure (size ≠ 0) Panic.emptyBlock
  if size < ENTRY_SIZE then pure l
  else do
    ensure (bucketIndexForSize size < l.buckets) Panic.bucketOutOfBounds
    pure (l.link (bucketIndexForSize size) addr size)

def clear (l : RawFreeList) : RawFreeList where
  buckets := l.buckets
  heads := fun _ => []
  tails := fun _ => none
  biggest := 0
  count := 0
  freeBytes := 0

def unlink (l : RawFreeList) (index : Nat) (entry : Entry) (rest : List Entry) : RawFreeList where
  buckets := l.buckets
  heads := Function.update l.heads index rest
  tails := if rest = [] then Function.update l.tails index none else l.tails
  biggest := index
  count := l.count - 1
  freeBytes := l.freeBytes - entry.size

-- The loop of `allocate` from bucket `index` downwards; the bucket size is
-- `2 ^ index` in every round.
def allocateFrom (l : RawFreeList) (allocationSize : Nat) : Nat → Option Entry × RawFreeList
  | 0 => (none, { l with biggest := 0 })
  | index + 1 =>
      match l.heads (index + 1) with
      | [] =>
          if 2 ^ (index + 1) < allocationSize then (none, { l with biggest := index + 1 })
          else l.allocateFrom allocationSize index
      | entry :: rest =>
          -- the final candidate: only its first entry is looked at
          if 2 ^ (index + 1) < allocationSize ∧ entry.size < allocationSize then
            (none, { l with biggest := index + 1 })
          else (some entry, l.unlink (index + 1) entry rest)

def allocate (l : RawFreeList) (allocationSize : Nat) : Option Entry × RawFreeList :=
  l.allocateFrom allocationSize l.biggest

def peekFree (l : RawFreeList) : Nat :=
  if 0 < l.biggest then
    match l.heads l.biggest with
    | [] => 0
    | entry :: _ => entry.size
  else 0

def entries (l : RawFreeList) : List Entry := (List.range l.buckets).flatMap l.heads

-- The representation invariant of a free list.
structure Valid (l : RawFreeList) : Prop where
  buckets_le : l.buckets ≤ 64
  sum_le : (l.entries.map Entry.size).sum ≤ l.freeBytes
  count_eq : l.count = l.entries.length
  bucket : ∀ i e, e ∈ l.heads i → i < l.buckets ∧ bucketIndexForSize e.size = i ∧ 16 ≤ e.size
  above : ∀ i, l.biggest < i → l.heads i = []
  tails_eq : ∀ i, l.tails i = (l.heads i).getLast?.map Entry.addr

end RawFreeList

end Rsgc.Storage
