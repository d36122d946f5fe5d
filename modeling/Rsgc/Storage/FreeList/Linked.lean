import Rsgc.Storage.FreeList
import Rsgc.System.Header

namespace Rsgc.Storage

-- A `FreeList` with the memory that its entries lie in. Pointers are addresses,
-- and the null pointer is 0.
structure LinkedFreeList where
  memory : Memory
  buckets : Nat
  heads : Nat → Nat
  tails : Nat → Nat
  biggest : Nat
  count : Nat
  freeBytes : Nat

namespace LinkedFreeList

def new (opts : HeapOptions) (memory : Memory) : LinkedFreeList where
  memory := memory
  buckets := opts.regionSizeLog2 + 1
  heads := fun _ => 0
  tails := fun _ => 0
  biggest := 0
  count := 0
  freeBytes := 0

-- `(*entry).next`
def next (l : LinkedFreeList) (entry : Nat) : Nat := l.memory.readLE (entry + 8) 8

def setNext (l : LinkedFreeList) (entry value : Nat) : LinkedFreeList :=
  { l with memory := l.memory.writeLE (entry + 8) 8 value }

def heapSize (l : LinkedFreeList) (entry : Nat) : Nat := System.Entry.heapSize l.memory entry

-- `Filler::new`
def filler (l : LinkedFreeList) (addr size : Nat) : LinkedFreeList :=
  let word := System.VtableTag.update 0 (System.headerWord l.memory addr)
  { l with memory := System.setHeaderWord l.memory addr (System.SizeTag.update word size) }

-- `Entry::link` into the list of the bucket
def link (l : LinkedFreeList) (entry index : Nat) : LinkedFreeList :=
  { l.setNext entry (l.heads index) with heads := Function.update l.heads index entry }

-- `Entry::unlink` from the head of the list
def unlink (l : LinkedFreeList) (entry index : Nat) : LinkedFreeList :=
  { l.setNext entry 0 with heads := Function.update l.heads index (l.next entry) }

-- The rest of `add`, once the block is an entry.
def addEntry (l : LinkedFreeList) (entry size : Nat) : LinkedFreeList :=
  let index := bucketIndexForSize size
  let l := l.link entry index
  { l with
    biggest := max l.biggest index
    tails := if l.next entry = 0 then Function.update l.tails index entry else l.tails
    count := l.count + 1
    freeBytes := l.freeBytes + size }

def add (l : LinkedFreeList) (addr size : Nat) : Except Panic LinkedFreeList := do
  ensure (size ≠ 0) Panic.emptyBlock
  if size < ENTRY_SIZE then pure (l.filler addr size)
  else do
    let l := { l with memory := System.Entry.asEntry l.memory addr size }
    ensure (l.heapSize addr ≠ 0) Panic.emptyBlock
    ensure (bucketIndexForSize size < l.buckets) Panic.bucketOutOfBounds
    pure (l.addEntry addr size)

def clear (l : LinkedFreeList) : LinkedFreeList :=
  { l with
    heads := fun _ => 0
    tails := fun _ => 0
    biggest := 0
    count := 0
    freeBytes := 0 }

-- The first entry of the bucket is handed out.
def takeHead (l : LinkedFreeList) (entry index : Nat) : LinkedFreeList :=
  let tails := if l.next entry = 0 then Function.update l.tails index 0 else l.tails
  let l := { l.unlink entry index with tails := tails, biggest := index }
  { l with freeBytes := l.freeBytes - l.heapSize entry, count := l.count - 1 }

-- The loop of `allocate`. `index` goes down to 0, and the bucket size is
-- `2 ^ index` in every round.
def allocateFrom (l : LinkedFreeList) (allocationSize : Nat) : Nat → (Nat × Nat) × LinkedFreeList
  | 0 => ((0, 0), { l with biggest := 0 })
  | index + 1 =>
      let entry := l.heads (index + 1)
      if 2 ^ (index + 1) < allocationSize ∧ (entry = 0 ∨ l.heapSize entry < allocationSize) then
        ((0, 0), { l with biggest := index + 1 })
      else if entry ≠ 0 then
        let l := l.takeHead entry (index + 1)
        ((entry, l.heapSize entry), l)
      else l.allocateFrom allocationSize index

def allocate (l : LinkedFreeList) (allocationSize : Nat) : (Nat × Nat) × LinkedFreeList :=
  l.allocateFrom allocationSize l.biggest

-- The entries that are met on the way from `entry` to the null pointer.
def walk (l : LinkedFreeList) : Nat → Nat → List Entry
  | 0, _ => []
  | fuel + 1, entry =>
      if entry = 0 then [] else ⟨entry, l.heapSize entry⟩ :: l.walk fuel (l.next entry)

def bucket (l : LinkedFreeList) (index : Nat) : List Entry := l.walk l.count (l.heads index)

def entries (l : LinkedFreeList) : List Entry := (List.range l.buckets).flatMap l.bucket

-- What the callers of `add` promise.
structure Addable (opts : HeapOptions) (l : LinkedFreeList) (addr size : Nat) : Prop where
  pos : 0 < size
  dvd : 16 ∣ size
  le : size ≤ opts.regionSizeBytes
  addr_pos : 0 < addr
  stop_le : addr + size ≤ usizeRange
  apart : ∀ e ∈ l.entries, addr + size ≤ e.addr ∨ e.addr + e.size ≤ addr

end LinkedFreeList

-- `store` is a write to memory that no entry lies in.
inductive FreeListEvent
  | add (addr size : Nat)
  | allocate (allocationSize : Nat)
  | clear
  | store (addr : Nat) (byte : UInt8)

namespace LinkedFreeList

instance (opts : HeapOptions) (l : LinkedFreeList) (addr size : Nat) :
    Decidable (l.Addable opts addr size) :=
  decidable_of_iff (0 < size ∧ 16 ∣ size ∧ size ≤ opts.regionSizeBytes ∧ 0 < addr ∧
      addr + size ≤ usizeRange ∧ ∀ e ∈ l.entries, addr + size ≤ e.addr ∨ e.addr + e.size ≤ addr)
    ⟨fun h => ⟨h.1, h.2.1, h.2.2.1, h.2.2.2.1, h.2.2.2.2.1, h.2.2.2.2.2⟩,
      fun h => ⟨h.pos, h.dvd, h.le, h.addr_pos, h.stop_le, h.apart⟩⟩

def step (opts : HeapOptions) (l : LinkedFreeList) : FreeListEvent → Option LinkedFreeList
  | .add addr size => if l.Addable opts addr size then (l.add addr size).toOption else none
  | .allocate allocationSize => some (l.allocate allocationSize).2
  | .clear => some l.clear
  | .store addr byte =>
      if ∀ e ∈ l.entries, addr < e.addr ∨ e.addr + e.size ≤ addr then
        some { l with memory := Function.update l.memory addr byte }
      else none

end LinkedFreeList

def freeListMachine (opts : HeapOptions) : Machine LinkedFreeList FreeListEvent where
  init := fun l => ∃ memory, l = LinkedFreeList.new opts memory
  step := LinkedFreeList.step opts

end Rsgc.Storage
