import Rsgc.Lib.Traced
import Rsgc.Utils.BitVector
import Rsgc.Utils.SloppyMemset.Patterns

namespace Rsgc.Utils

def readWord (m : Memory) (addr : Nat) : Word := BitVec.ofNat 64 (m.readLE addr 8)

def writeWord (t : Traced) (addr : Nat) (value : Word) : Traced :=
  t.write addr 8 fun i => UInt8.ofNat (value.toNat / 256 ^ i)

-- `copy_nonoverlapping` of some words
def copyWords (t : Traced) (source target count : Nat) : Traced :=
  t.write target (8 * count) fun i => t.memory (source + i)

-- `sloppy_memset` with zero
def clearBytes (p : Profile) (t : Traced) (ptr len : Nat) : Option Traced := do
  let (memory, written) ← SloppyMemset.sloppyMemset p t.memory ptr 0 len
  pure { t with
    memory := memory
    writes := written.map (fun v => ⟨t.block, v, 16⟩) ++ t.writes }

-- `num_bits + bits_in_pointer() - 1`
def lastBit (p : Profile) (numBits : Nat) : Option Nat := do
  let sum ← p.unsigned 64 ((numBits : Int) + BITS_IN_POINTER)
  p.unsigned 64 ((sum : Int) - 1)

-- `(words - a - b) * size_of::<usize>()`
def bytesLeft (p : Profile) (words a b : Nat) : Option Nat := do
  let rest ← p.unsigned 64 ((words : Int) - a)
  let rest ← p.unsigned 64 ((rest : Int) - b)
  p.unsigned 64 ((rest : Int) * 8)

-- `OutOfLineBits::new`. The header of the new block holds the size.
def newOutOfLine (p : Profile) (t : Traced) (chunk : Grant) (numBits : Nat) :
    Option Traced := do
  let last ← lastBit p numBits
  let numWords := last / BITS_IN_POINTER
  let t ← t.malloc chunk (8 + 8 * numWords)
  pure (writeWord t chunk.address (BitVec.ofNat 64 (numWords * BITS_IN_POINTER)))

def numWords (p : Profile) (numBits : Nat) : Option Nat :=
  (lastBit p numBits).map (· / BITS_IN_POINTER)

-- A bit vector whose words are in memory.
structure StoredBits where
  bitsOrPointer : Word
  heap : Traced

namespace StoredBits

def isInline (v : StoredBits) : Bool := v.bitsOrPointer >>> MAX_INLINE_BITS != 0

-- `out_of_line_bits`
def pointer (v : StoredBits) : Nat := (v.bitsOrPointer <<< 1).toNat

-- Behind the header
def bits (v : StoredBits) : Nat := v.pointer + 8

def numBits (v : StoredBits) : Nat := (readWord v.heap.memory v.pointer).toNat

def size (v : StoredBits) : Nat := if v.isInline then MAX_INLINE_BITS else v.numBits

-- `*self.bits().add(index)`
def word (v : StoredBits) (index : Nat) : Word :=
  if v.isInline then v.bitsOrPointer else readWord v.heap.memory (v.bits + 8 * index)

def setWord (v : StoredBits) (index : Nat) (value : Word) : StoredBits :=
  if v.isInline then { v with bitsOrPointer := value }
  else { v with heap := writeWord v.heap (v.bits + 8 * index) value }

-- The new block, which the memory already has, gets the words of the vector.
def fillNew (p : Profile) (v : StoredBits) (bits newNumWords numBits shiftInWords : Nat) :
    Option Traced :=
  if v.isInline then do
    let heap ← clearBytes p v.heap bits (shiftInWords * 8)
    let heap := writeWord heap (bits + 8 * shiftInWords) (v.bitsOrPointer &&& ~~~inlineFlag)
    let rest ← bytesLeft p newNumWords shiftInWords 1
    clearBytes p heap (bits + 8 * (shiftInWords + 1)) rest
  else if v.size < numBits then do
    let oldNumWords ← numWords p v.numBits
    let heap ← clearBytes p v.heap bits (shiftInWords * 8)
    let heap := copyWords heap v.bits (bits + 8 * shiftInWords) oldNumWords
    let rest ← bytesLeft p newNumWords oldNumWords shiftInWords
    clearBytes p heap (bits + 8 * (shiftInWords + oldNumWords)) rest
  else some (copyWords v.heap v.bits bits newNumWords)

def resizeOutOfLine (p : Profile) (v : StoredBits) (chunk : Grant)
    (numBits shiftInWords : Nat) : Option StoredBits := do
  let fresh ← newOutOfLine p v.heap chunk numBits
  let newNumWords ← numWords p (readWord fresh.memory chunk.address).toNat
  let filled ← fillNew p { v with heap := fresh } (chunk.address + 8) newNumWords numBits
    shiftInWords
  pure { bitsOrPointer := BitVec.ofNat 64 chunk.address >>> 1, heap := filled }

def ensureSize (p : Profile) (v : StoredBits) (chunk : Grant) (numBits : Nat) :
    Option StoredBits :=
  if numBits ≤ v.size then some v else v.resizeOutOfLine p chunk numBits 0

def quickSet (v : StoredBits) (bit : Nat) : Option (Bool × StoredBits) :=
  if bit < v.size then
    let word := v.word (bit / BITS_IN_POINTER)
    some (word &&& BitVector.bitMask bit != 0,
      v.setWord (bit / BITS_IN_POINTER) (word ||| BitVector.bitMask bit))
  else none

def set (p : Profile) (v : StoredBits) (chunk : Grant) (bit : Nat) :
    Option (Bool × StoredBits) := do
  let numBits ← p.unsigned 64 ((bit : Int) + 1)
  let v ← v.ensureSize p chunk numBits
  v.quickSet bit

-- `(bit_count + 7) >> 3`
def byteCount (p : Profile) (bitCount : Nat) : Option Nat :=
  (p.unsigned 64 ((bitCount : Int) + 7)).map (· / 8)

def clearAll (p : Profile) (v : StoredBits) : Option StoredBits :=
  if v.isInline then some { v with bitsOrPointer := BitVector.makeInlineBits 0 }
  else do
    let bytes ← byteCount p v.size
    let heap ← clearBytes p v.heap v.bits bytes
    pure { v with heap := heap }

-- The vector with its words taken out of memory
def toBitVector (v : StoredBits) : BitVector :=
  ⟨v.bitsOrPointer, if v.isInline then ⟨0, fun _ => 0⟩
    else ⟨v.numBits, fun i => readWord v.heap.memory (v.bits + 8 * i)⟩⟩

end StoredBits

-- The index and the size are of type `usize`.
inductive StoredCall
  | set (bit : Word) (chunk : Grant)
  | ensureSize (numBits : Word) (chunk : Grant)
  | clearAll

-- A vector, and the set of the bits that it should have.
structure StoredRun where
  vector : StoredBits
  set : Finset Nat

namespace StoredRun

def step (p : Profile) (s : StoredRun) : StoredCall → Option StoredRun
  | .set bit chunk =>
      (s.vector.set p chunk bit.toNat).map fun r => ⟨r.2, insert bit.toNat s.set⟩
  | .ensureSize numBits chunk =>
      (s.vector.ensureSize p chunk numBits.toNat).map fun v => ⟨v, s.set⟩
  | .clearAll => (s.vector.clearAll p).map fun v => ⟨v, ∅⟩

-- `BitVector::new()`, with any memory around it
def IsInitial (s : StoredRun) : Prop :=
  s.vector.bitsOrPointer = BitVector.makeInlineBits 0 ∧ s.vector.heap.block = ⟨0, 0⟩ ∧
    s.vector.heap.writes = [] ∧ s.set = ∅

end StoredRun

def storedMachine (p : Profile) : Machine StoredRun StoredCall where
  init := StoredRun.IsInitial
  step := StoredRun.step p

end Rsgc.Utils
