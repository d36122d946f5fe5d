import Rsgc.Lib.Bytes
import Rsgc.Lib.Machine

namespace Rsgc.Utils

-- Arithmetic on `usize` wraps.
def usizeSub (a b : Nat) : Nat := (a + 2 ^ 64 - b) % 2 ^ 64

theorem usizeSub_of_le {a b : Nat} (hle : b ≤ a) (ha : a < 2 ^ 64) : usizeSub a b = a - b := by
  unfold usizeSub
  omega

theorem usizeSub_zero {a : Nat} (ha : a < 2 ^ 64) : usizeSub a 0 = a :=
  usizeSub_of_le (Nat.zero_le a) ha

-- `align_up` of `heap/mod.rs`
def alignUp (addr align : Nat) : Nat :=
  usizeSub (usizeSub addr align) 1 &&& (2 ^ 64 - 1 - usizeSub align 1)

-- A piece of memory that `malloc` has handed out.
structure Chunk where
  addr : Nat
  size : Nat
deriving DecidableEq, Repr

-- A `Stack<E>` with the memory that its segments lie in. `elemSize` is
-- `size_of::<E>()`, an element is the number that its bytes make up, and the
-- null pointer is 0.
structure Stack where
  elemSize : Nat
  segSize : Nat
  maxCacheSize : Nat
  curSegSize : Nat
  fullSegSize : Nat
  cacheSize : Nat
  curSeg : Nat
  cache : Nat
  memory : Memory
  chunks : List Chunk

namespace Stack

def new (elemSize segmentSize maxCacheSize : Nat) (memory : Memory) : Stack where
  elemSize := elemSize
  segSize := segmentSize
  maxCacheSize := maxCacheSize
  curSegSize := segmentSize
  fullSegSize := 0
  cacheSize := 0
  curSeg := 0
  cache := 0
  memory := memory
  chunks := []

def isEmpty (s : Stack) : Bool := s.curSeg == 0

def size (s : Stack) : Nat := if s.isEmpty then 0 else s.fullSegSize + s.curSegSize

def reset (s : Stack) (resetCache : Bool) : Stack :=
  { s with
    curSegSize := s.segSize
    fullSegSize := 0
    curSeg := 0
    cacheSize := if resetCache then 0 else s.cacheSize
    cache := if resetCache then 0 else s.cache }

def linkOffset (s : Stack) : Nat := alignUp (s.segSize * s.elemSize % 2 ^ 64) s.elemSize

def linkAddr (s : Stack) (seg : Nat) : Nat := (seg + s.linkOffset) % 2 ^ 64

def segmentBytes (s : Stack) : Nat := (s.linkOffset + s.elemSize) % 2 ^ 64

def getLink (s : Stack) (seg : Nat) : Nat := s.memory.readLE (s.linkAddr seg) 8

def setLink (s : Stack) (seg link : Nat) : Stack :=
  { s with memory := s.memory.writeLE (s.linkAddr seg) 8 link }

-- `malloc` returns memory that nobody else has.
def Fresh (s : Stack) (addr : Nat) : Prop :=
  0 < addr ∧ addr + s.segmentBytes ≤ 2 ^ 64 ∧
    ∀ c ∈ s.chunks, addr + s.segmentBytes ≤ c.addr ∨ c.addr + c.size ≤ addr

instance (s : Stack) (addr : Nat) : Decidable (s.Fresh addr) :=
  inferInstanceAs (Decidable (_ ∧ _ ∧ ∀ c ∈ s.chunks, _ ∨ _))

def alloc (s : Stack) (addr : Nat) : Option Stack :=
  if s.Fresh addr then some { s with chunks := ⟨addr, s.segmentBytes⟩ :: s.chunks } else none

-- What was not handed out cannot be freed.
def free (s : Stack) (seg : Nat) : Option Stack :=
  if ∃ c ∈ s.chunks, c.addr = seg then
    some { s with chunks := s.chunks.filter fun c => c.addr ≠ seg }
  else none

-- The segment that `push_segment` uses comes from the cache or from `malloc`, which
-- would return `addr`.
def takeSegment (s : Stack) (addr : Nat) : Option (Nat × Stack) :=
  if 0 < s.cacheSize then
    some (s.cache, { s with cache := s.getLink s.cache, cacheSize := s.cacheSize - 1 })
  else (s.alloc addr).map fun s => (addr, s)

def startSegment (s : Stack) (next : Nat) : Stack :=
  let atEmptyTransition := s.isEmpty
  { s.setLink next s.curSeg with
    curSeg := next
    curSegSize := 0
    fullSegSize := s.fullSegSize + if atEmptyTransition then 0 else s.segSize }

def pushSegment (s : Stack) (addr : Nat) : Option Stack :=
  (s.takeSegment addr).map fun r => r.2.startSegment r.1

-- `pop_segment` keeps the segment in the cache while that has room.
def dropSegment (s : Stack) : Option Stack :=
  if s.cacheSize < s.maxCacheSize then
    some { s.setLink s.curSeg s.cache with cache := s.curSeg, cacheSize := s.cacheSize + 1 }
  else s.free s.curSeg

def popSegment (s : Stack) : Option Stack :=
  let prev := s.getLink s.curSeg
  s.dropSegment.map fun s =>
    { s with
      curSeg := prev
      curSegSize := s.segSize
      fullSegSize := usizeSub s.fullSegSize (if prev = 0 then 0 else s.segSize) }

-- A chunk can only be freed once, so their number bounds the loop.
def freeSegments (s : Stack) : Nat → Nat → Option Stack
  | 0, seg => if seg = 0 then some s else none
  | fuel + 1, seg =>
      if seg = 0 then some s
      else (s.free seg).bind fun t => t.freeSegments fuel (s.getLink seg)

def push (s : Stack) (item addr : Nat) : Option Stack :=
  (if s.curSegSize = s.segSize then s.pushSegment addr else some s).map fun s =>
    { s with
      memory := s.memory.writeLE (s.curSeg + s.curSegSize * s.elemSize) s.elemSize item
      curSegSize := s.curSegSize + 1 }

def pop (s : Stack) : Option (Option Nat × Stack) :=
  if s.isEmpty then some (none, s)
  else
    let index := usizeSub s.curSegSize 1
    let result := s.memory.readLE (s.curSeg + index * s.elemSize) s.elemSize
    let s := { s with curSegSize := index }
    (if index = 0 then s.popSegment else some s).map fun s => (some result, s)

def clear (s : Stack) (resetCache : Bool) : Option Stack :=
  (s.freeSegments s.chunks.length s.curSeg).bind fun s =>
    (if resetCache then s.freeSegments s.chunks.length s.cache else some s).map fun s =>
      s.reset resetCache

end Stack

-- `store` is a write by somebody else to memory of their own.
inductive StackEvent
  | push (item addr : Nat)
  | pop
  | clear (resetCache : Bool)
  | store (addr : Nat) (byte : UInt8)

-- The stack, the list that it should be, and the answers of both to `pop`.
structure StackRun where
  stack : Stack
  list : List Nat
  popped : List (Option Nat × Option Nat)

namespace StackRun

def step (s : StackRun) : StackEvent → Option StackRun
  | .push item addr =>
      if item < 256 ^ s.stack.elemSize then
        (s.stack.push item addr).map fun t => { s with stack := t, list := item :: s.list }
      else none
  | .pop => s.stack.pop.map fun r =>
      ⟨r.2, s.list.tail, (r.1, s.list.head?) :: s.popped⟩
  | .clear resetCache => (s.stack.clear resetCache).map fun t => { s with stack := t, list := [] }
  | .store addr byte =>
      if ∀ c ∈ s.stack.chunks, addr < c.addr ∨ c.addr + c.size ≤ addr then
        some { s with stack := { s.stack with
          memory := Function.update s.stack.memory addr byte } }
      else none

end StackRun

-- `new` divides by the size of a segment.
def stackMachine (elemSize segmentSize maxCacheSize : Nat) : Machine StackRun StackEvent where
  init := fun s => 0 < segmentSize ∧
    ∃ memory, s = ⟨Stack.new elemSize segmentSize maxCacheSize memory, [], []⟩
  step := StackRun.step

end Rsgc.Utils
