import Rsgc.Lib.Bytes
import Rsgc.Lib.Machine
import Rsgc.Storage.FreeList
import Rsgc.System.BitField

namespace Rsgc.System

open Storage (MAX_SIZE_TAG storedSize usizeRange wrap)

def NO_GC_PTRS : Nat := 0
def VISITED : Nat := 1
def FINALIZATION_ORDERING : Nat := 2
def SIZE_TAG_POS : Nat := FINALIZATION_ORDERING + 1
def SIZE_TAG_SIZE : Nat := 13
def VTABLE_TAG_POS : Nat := SIZE_TAG_POS + SIZE_TAG_SIZE
def VTABLE_TAG_SIZE : Nat := 48

def SizeBits : BitField := ⟨SIZE_TAG_SIZE, SIZE_TAG_POS⟩
def VtableTag : BitField := ⟨VTABLE_TAG_SIZE, VTABLE_TAG_POS⟩
def VisitedTag : BitField := ⟨1, VISITED⟩
def NoHeapPtrsTag : BitField := ⟨1, NO_GC_PTRS⟩
def FinalizationOrderingTag : BitField := ⟨1, FINALIZATION_ORDERING⟩

namespace SizeTag

def sizeToTagValue (size : Nat) : BitVec 64 :=
  if size ≤ MAX_SIZE_TAG then BitVec.ofNat 64 size >>> 4 else 0

def tagValueToSize (tag : BitVec 64) : Nat := (tag <<< 4).toNat

def decode (tag : BitVec 64) : Nat := tagValueToSize (SizeBits.decode tag)

def update (tag : BitVec 64) (size : Nat) : BitVec 64 := SizeBits.update (sizeToTagValue size) tag

end SizeTag

-- `align_usize(value, 16)`
def alignUsize16 (value : Nat) : Nat := wrap (wrap (value + 16 + usizeRange - 1) / 16 * 16)

-- `size_of::<HeapObjectHeader>()`
def HEADER_SIZE : Nat := 8

-- The constants of a type that decide its size; all but the last are also in its vtable.
structure Allocation where
  size : Nat
  varsize : Bool
  varsizeItemSize : Nat
  varsizeOffsetofCapacity : Nat
  noHeapPtrs : Bool

namespace Allocation

-- The size that `allocate` asks for, and `allocate_varsize` below.
def fixedSize (t : Allocation) : Nat := alignUsize16 (wrap (t.size + HEADER_SIZE))

def varSize (t : Allocation) (length : Nat) : Nat :=
  alignUsize16 (wrap (t.size + HEADER_SIZE + t.varsizeItemSize * length))

end Allocation

def headerWord (m : Memory) (obj : Nat) : BitVec 64 := BitVec.ofNat 64 (m.readLE obj 8)

def setHeaderWord (m : Memory) (obj : Nat) (word : BitVec 64) : Memory := m.writeLE obj 8 word.toNat

namespace Entry

-- `size_address`
def sizeAddress (addr : Nat) : Nat := addr + 16

def heapSize (m : Memory) (addr : Nat) : Nat :=
  let sz := SizeTag.decode (headerWord m addr)
  if sz = 0 then m.readLE (sizeAddress addr) 8 else sz

def asEntry (m : Memory) (addr size : Nat) : Memory :=
  let tags := VtableTag.update 0 (SizeTag.update 0 size)
  let m := (setHeaderWord m addr tags).writeLE (addr + 8) 8 0
  if MAX_SIZE_TAG < size then m.writeLE (sizeAddress addr) 8 size else m

end Entry

namespace HeapObjectHeader

-- `types` are the types by the addresses of their vtables.
def heapSizeFromVtable (types : Nat → Allocation) (m : Memory) (obj : Nat) (tags : BitVec 64) :
    Nat :=
  let vt := (VtableTag.decode tags).toNat
  if vt = 0 then Entry.heapSize m obj
  else
    let t := types vt
    let capacity := m.readLE (obj + HEADER_SIZE + t.varsizeOffsetofCapacity) 4
    let result := if t.varsize then wrap (t.size + capacity * t.varsizeItemSize) else t.size
    alignUsize16 (wrap (result + HEADER_SIZE))

def heapSize (types : Nat → Allocation) (m : Memory) (obj : Nat) : Nat :=
  let tags := headerWord m obj
  let result := SizeTag.decode tags
  if result ≠ 0 then result else heapSizeFromVtable types m obj tags

end HeapObjectHeader

-- The header that both kinds of allocation write.
def initHeader (m : Memory) (obj vt size : Nat) (noHeapPtrs : Bool) : Memory :=
  let word := SizeTag.update (VtableTag.update (BitVec.ofNat 64 vt) 0) size
  setHeaderWord m obj (if noHeapPtrs then NoHeapPtrsTag.update 1 word else word)

-- `Thread::allocate`, where `value` are the bytes of the value.
def allocate (types : Nat → Allocation) (m : Memory) (obj vt : Nat) (value : Nat → UInt8) :
    Memory :=
  let t := types vt
  (initHeader m obj vt t.fixedSize t.noHeapPtrs).writeBytes (obj + HEADER_SIZE) t.size value

-- `Thread::allocate_varsize`; the length is written as a `usize`.
def allocateVarsize (types : Nat → Allocation) (m : Memory) (obj vt length : Nat) : Memory :=
  let t := types vt
  (initHeader m obj vt (t.varSize length) t.noHeapPtrs).writeLE
    (obj + HEADER_SIZE + t.varsizeOffsetofCapacity) 8 length

-- The updates of the other bits of a header.
inductive HeaderUpdate
  | setNoHeapPtrs
  | setFinalizationOrdering (value : Bool)
  | clearMarked
  | setMarked

def HeaderUpdate.apply (word : BitVec 64) : HeaderUpdate → BitVec 64
  | .setNoHeapPtrs => NoHeapPtrsTag.update 1 word
  | .setFinalizationOrdering value =>
      FinalizationOrderingTag.update (if value then 1 else 0) word
  | .clearMarked => VisitedTag.update 0 word
  | .setMarked => VisitedTag.update 1 word

-- A block of the heap: an entry of a free list, or an object with its vtable.
structure HeapBlock where
  addr : Nat
  size : Nat
  vtable : Option Nat

namespace HeapBlock

def stop (b : HeapBlock) : Nat := b.addr + b.size

-- The bytes that say how large the block is: the header word, and the capacity
-- of an object or the size of a large entry.
def sizeBytes (types : Nat → Allocation) (b : HeapBlock) : List (Nat × Nat) :=
  (b.addr, 8) ::
    match b.vtable with
    | none => if MAX_SIZE_TAG < b.size then [(Entry.sizeAddress b.addr, 8)] else []
    | some vt =>
        if (types vt).varsize then
          [(b.addr + HEADER_SIZE + (types vt).varsizeOffsetofCapacity, 4)]
        else []

end HeapBlock

-- The memory of the heap and the blocks that have a header in it.
structure Headers where
  memory : Memory
  blocks : List HeapBlock

-- `store` is any other write of a byte: by a mutator to its object, by the
-- allocator to free memory, or to the link of an entry.
inductive HeaderEvent
  | entry (addr size : Nat)
  | allocate (vt addr : Nat) (value : Nat → UInt8)
  | allocateVarsize (vt addr length : Nat)
  | release (addr : Nat)
  | update (addr : Nat) (u : HeaderUpdate)
  | store (addr : Nat) (byte : UInt8)

namespace Headers

variable (types : Nat → Allocation)

-- The memory is in no block, as the allocator promises.
def Unused (s : Headers) (addr size : Nat) : Prop :=
  ∀ b ∈ s.blocks, addr + size ≤ b.addr ∨ b.stop ≤ addr

-- The vtable address fits its tag, and the capacity is a `u32` within the object.
structure Typed (vt : Nat) (varsize : Bool) : Prop where
  vt_pos : 0 < vt
  vt_lt : vt < 2 ^ VTABLE_TAG_SIZE
  kind : (types vt).varsize = varsize
  field : varsize = true → (types vt).varsizeOffsetofCapacity + 4 ≤ (types vt).size

-- The size of the object can be computed without overflow.
def Fits (size : Nat) : Prop := size + HEADER_SIZE + 15 < usizeRange

-- What the callers of `allocate_varsize` may ask for.
structure Requestable (vt length : Nat) : Prop where
  typed : Typed types vt true
  length_lt : length < 2 ^ 32
  fits : Fits ((types vt).size + (types vt).varsizeItemSize * length)

def Enabled (s : Headers) : HeaderEvent → Prop
  | .entry addr size => 0 < size ∧ 16 ∣ size ∧ size < usizeRange ∧ s.Unused addr size
  | .allocate vt addr _ =>
      Typed types vt false ∧ Fits (types vt).size ∧ s.Unused addr (types vt).fixedSize
  | .allocateVarsize vt addr length =>
      Requestable types vt length ∧ s.Unused addr ((types vt).varSize length)
  | .release _ => True
  | .update addr _ => ∃ b ∈ s.blocks, b.addr = addr
  | .store addr byte => byte = s.memory addr ∨
      ∀ b ∈ s.blocks, ∀ p ∈ b.sizeBytes types, addr < p.1 ∨ p.1 + p.2 ≤ addr

def perform (s : Headers) : HeaderEvent → Headers
  | .entry addr size =>
      { memory := Entry.asEntry s.memory addr size, blocks := ⟨addr, size, none⟩ :: s.blocks }
  | .allocate vt addr value =>
      { memory := System.allocate types s.memory addr vt value
        blocks := ⟨addr, (types vt).fixedSize, some vt⟩ :: s.blocks }
  | .allocateVarsize vt addr length =>
      { memory := System.allocateVarsize types s.memory addr vt length
        blocks := ⟨addr, (types vt).varSize length, some vt⟩ :: s.blocks }
  | .release addr => { s with blocks := s.blocks.filter fun b => b.addr ≠ addr }
  | .update addr u =>
      { s with memory := setHeaderWord s.memory addr (u.apply (headerWord s.memory addr)) }
  | .store addr byte => { s with memory := Function.update s.memory addr byte }

instance (s : Headers) (addr size : Nat) : Decidable (s.Unused addr size) :=
  inferInstanceAs (Decidable (∀ b ∈ s.blocks, _ ∨ _))

instance (vt : Nat) (varsize : Bool) : Decidable (Typed types vt varsize) :=
  decidable_of_iff (0 < vt ∧ vt < 2 ^ VTABLE_TAG_SIZE ∧ (types vt).varsize = varsize ∧
      (varsize = true → (types vt).varsizeOffsetofCapacity + 4 ≤ (types vt).size))
    ⟨fun h => ⟨h.1, h.2.1, h.2.2.1, h.2.2.2⟩, fun h => ⟨h.vt_pos, h.vt_lt, h.kind, h.field⟩⟩

instance (size : Nat) : Decidable (Fits size) := inferInstanceAs (Decidable (_ < _))

instance (vt length : Nat) : Decidable (Requestable types vt length) :=
  decidable_of_iff (Typed types vt true ∧ length < 2 ^ 32 ∧
      Fits ((types vt).size + (types vt).varsizeItemSize * length))
    ⟨fun h => ⟨h.1, h.2.1, h.2.2⟩, fun h => ⟨h.typed, h.length_lt, h.fits⟩⟩

instance (s : Headers) : (e : HeaderEvent) → Decidable (s.Enabled types e)
  | .entry _ _ => inferInstanceAs (Decidable (_ ∧ _ ∧ _ ∧ _))
  | .allocate _ _ _ => inferInstanceAs (Decidable (_ ∧ _ ∧ _))
  | .allocateVarsize _ _ _ => inferInstanceAs (Decidable (_ ∧ _))
  | .release _ => inferInstanceAs (Decidable True)
  | .update addr _ => inferInstanceAs (Decidable (∃ b ∈ s.blocks, b.addr = addr))
  | .store _ _ => inferInstanceAs (Decidable (_ ∨ ∀ b ∈ s.blocks, ∀ p ∈ b.sizeBytes types, _ ∨ _))

def step (s : Headers) (e : HeaderEvent) : Option Headers :=
  if s.Enabled types e then some (s.perform types e) else none

-- Every block is as large as its header says.
def ReadsBack (s : Headers) : Prop :=
  ∀ b ∈ s.blocks, HeapObjectHeader.heapSize types s.memory b.addr = b.size

-- The length that is written does not reach beyond the new object.
def Contained (_ : Headers) : HeaderEvent → Prop
  | .allocateVarsize vt _ length =>
      HEADER_SIZE + (types vt).varsizeOffsetofCapacity + 8 ≤ (types vt).varSize length
  | _ => True

end Headers

def headerMachine (types : Nat → Allocation) : Machine Headers HeaderEvent where
  init := fun s => s.blocks = []
  step := Headers.step types

end Rsgc.System
