import Mathlib.Algebra.Ring.Nat
import Mathlib.Data.Finset.Card
import Mathlib.Data.Finset.SDiff
import Mathlib.Logic.Function.Basic
import Rsgc.Lib.Machine

namespace Rsgc.Utils

abbrev Word := BitVec 64

-- `usize::count_ones`
def countOnes (word : Word) : Nat := (List.range 64).countP fun i => word.getLsbD i

def BITS_IN_POINTER : Nat := 64

def MAX_INLINE_BITS : Nat := BITS_IN_POINTER - 1

def inlineFlag : Word := 1 <<< MAX_INLINE_BITS

-- What `malloc` returns: an address, and memory with some content.
structure Malloc where
  address : Word
  contents : Nat → Word

structure OutOfLineBits where
  numBits : Nat
  bits : Nat → Word

namespace OutOfLineBits

-- A size within a word of the end of `usize` overflows.
def new (chunk : Malloc) (numBits : Nat) : Option OutOfLineBits :=
  if numBits + BITS_IN_POINTER - 1 < 2 ^ 64 then
    some { numBits := (numBits + BITS_IN_POINTER - 1) / 64 * 64, bits := chunk.contents }
  else none

def numWords (b : OutOfLineBits) : Nat := (b.numBits + BITS_IN_POINTER - 1) / BITS_IN_POINTER

-- `sloppy_memset` with zero on whole words. What it writes behind them inside the chunk is
-- written again by its callers. A fill that is not `Covered` also writes behind the chunk,
-- to another vector or to data of `malloc`.
def zeroWords (b : OutOfLineBits) (start count : Nat) : OutOfLineBits :=
  { b with bits := fun i => if start ≤ i ∧ i < start + count then 0 else b.bits i }

def copyWords (b : OutOfLineBits) (source : Nat → Word) (start count : Nat) : OutOfLineBits :=
  { b with bits := fun i => if start ≤ i ∧ i < start + count then source (i - start) else b.bits i }

-- The loops over the words of a chunk: word `i` is combined with word `i` of the other.
def combineWords (b : OutOfLineBits) (f : Word → Word → Word) (source : Nat → Word) (count : Nat) :
    OutOfLineBits :=
  { b with bits := fun i => if i < count then f (b.bits i) (source i) else b.bits i }

end OutOfLineBits

-- A fill of so many words whose last byte is before `limit` ends just there: it is as short
-- as the fill at least is, or ends with one of its vectors.
def Covered (limit words : Nat) : Prop := words = 2 ∨ 2 < words ∧ limit % 16 = 0

instance (limit words : Nat) : Decidable (Covered limit words) :=
  inferInstanceAs (Decidable (_ ∨ _ ∧ _))

-- Either the bits with the flag above them, or a pointer shifted right by one
-- to `outOfLine`.
structure BitVector where
  bitsOrPointer : Word
  outOfLine : OutOfLineBits

namespace BitVector

def makeInlineBits (bits : Word) : Word := bits ||| inlineFlag

def cleanseInlineBits (bits : Word) : Word := bits &&& ~~~inlineFlag

def new : BitVector := ⟨makeInlineBits 0, ⟨0, fun _ => 0⟩⟩

def isInline (v : BitVector) : Bool := v.bitsOrPointer >>> MAX_INLINE_BITS != 0

def size (v : BitVector) : Nat := if v.isInline then MAX_INLINE_BITS else v.outOfLine.numBits

-- `out_of_line_bits`
def pointer (v : BitVector) : Nat := (v.bitsOrPointer <<< 1).toNat

-- `*self.bits().add(index)`
def word (v : BitVector) (index : Nat) : Word :=
  if v.isInline then v.bitsOrPointer else v.outOfLine.bits index

def setWord (v : BitVector) (index : Nat) (value : Word) : BitVector :=
  if v.isInline then { v with bitsOrPointer := value }
  else { v with outOfLine :=
    { v.outOfLine with bits := Function.update v.outOfLine.bits index value } }

def resizeOutOfLine (v : BitVector) (chunk : Malloc) (numBits shiftInWords : Nat) :
    Option BitVector := do
  let fresh ← OutOfLineBits.new chunk numBits
  let filled :=
    if v.isInline then
      let fresh := fresh.zeroWords 0 shiftInWords
      let first := v.bitsOrPointer &&& ~~~inlineFlag
      let fresh := { fresh with bits := Function.update fresh.bits shiftInWords first }
      fresh.zeroWords (shiftInWords + 1) (fresh.numWords - shiftInWords - 1)
    else if v.size < numBits then
      let oldNumWords := v.outOfLine.numWords
      let fresh := fresh.zeroWords 0 shiftInWords
      let fresh := fresh.copyWords v.outOfLine.bits shiftInWords oldNumWords
      fresh.zeroWords (shiftInWords + oldNumWords) (fresh.numWords - oldNumWords - shiftInWords)
    else fresh.copyWords v.outOfLine.bits 0 fresh.numWords
  pure { bitsOrPointer := chunk.address >>> 1, outOfLine := filled }

def ensureSize (v : BitVector) (chunk : Malloc) (numBits : Nat) : Option BitVector :=
  if numBits ≤ v.size then some v else v.resizeOutOfLine chunk numBits 0

-- The words that a larger chunk gets from the vector.
def oldWords (v : BitVector) : Nat := if v.isInline then 1 else v.outOfLine.numBits / 64

-- No larger chunk is needed, or the part of it behind these words is filled to its end.
def GrowsWithin (v : BitVector) (chunk : Malloc) (numBits : Nat) : Prop :=
  numBits ≤ v.size ∨ numBits + 63 < 2 ^ 64 ∧
    Covered (chunk.address.toNat + 8 + 8 * ((numBits + 63) / 64))
      ((numBits + 63) / 64 - v.oldWords)

instance (v : BitVector) (chunk : Malloc) (numBits : Nat) :
    Decidable (v.GrowsWithin chunk numBits) := inferInstanceAs (Decidable (_ ∨ _ ∧ _))

def bitMask (bit : Nat) : Word := 1 <<< (bit % BITS_IN_POINTER)

def quickGet (v : BitVector) (bit : Nat) : Option Bool :=
  if bit < v.size then some (v.word (bit / BITS_IN_POINTER) &&& bitMask bit != 0) else none

def get (v : BitVector) (bit : Nat) : Option Bool :=
  if v.size ≤ bit then some false else v.quickGet bit

def quickSet (v : BitVector) (bit : Nat) : Option (Bool × BitVector) :=
  if bit < v.size then
    let word := v.word (bit / BITS_IN_POINTER)
    some (word &&& bitMask bit != 0, v.setWord (bit / BITS_IN_POINTER) (word ||| bitMask bit))
  else none

def quickClear (v : BitVector) (bit : Nat) : Option (Bool × BitVector) :=
  if bit < v.size then
    let word := v.word (bit / BITS_IN_POINTER)
    some (word &&& bitMask bit != 0, v.setWord (bit / BITS_IN_POINTER) (word &&& ~~~bitMask bit))
  else none

-- `bit + 1` overflows on the largest index.
def set (v : BitVector) (chunk : Malloc) (bit : Nat) : Option (Bool × BitVector) := do
  if bit + 1 < 2 ^ 64 then
    let v ← v.ensureSize chunk (bit + 1)
    v.quickSet bit
  else none

def add (v : BitVector) (chunk : Malloc) (bit : Nat) : Option (Bool × BitVector) :=
  (v.set chunk bit).map fun r => (!r.1, r.2)

def clear (v : BitVector) (bit : Nat) : Option (Bool × BitVector) :=
  if v.size ≤ bit then some (false, v) else v.quickClear bit

def clearAll (v : BitVector) : BitVector :=
  if v.isInline then { v with bitsOrPointer := makeInlineBits 0 }
  else { v with outOfLine := v.outOfLine.zeroWords 0 (v.size / BITS_IN_POINTER) }

-- `clear_all` has no chunk, or fills all the words of its chunk to the end.
def ClearsWithin (v : BitVector) : Prop :=
  v.isInline = true ∨
    Covered (v.pointer + 8 + 8 * (v.outOfLine.numBits / 64)) (v.outOfLine.numBits / 64)

instance (v : BitVector) : Decidable v.ClearsWithin := inferInstanceAs (Decidable (_ ∨ _))

def mergeSlow (v other : BitVector) (chunk : Malloc) : Option BitVector :=
  if other.isInline then
    some (v.setWord 0 (v.word 0 ||| cleanseInlineBits other.bitsOrPointer))
  else do
    let v ← v.ensureSize chunk other.size
    let b := other.outOfLine
    pure { v with outOfLine := v.outOfLine.combineWords (· ||| ·) b.bits b.numWords }

def filterSlow (v other : BitVector) : BitVector :=
  if other.isInline then v.setWord 0 (v.word 0 &&& cleanseInlineBits other.bitsOrPointer)
  else if v.isInline then
    { v with bitsOrPointer := (v.bitsOrPointer &&& other.outOfLine.bits 0) ||| inlineFlag }
  else
    let a := v.outOfLine
    let b := other.outOfLine
    let kept := a.combineWords (· &&& ·) b.bits (min a.numWords b.numWords)
    { v with outOfLine := kept.zeroWords b.numWords (a.numWords - b.numWords) }

def excludeSlow (v other : BitVector) : BitVector :=
  if other.isInline then v.setWord 0 (v.word 0 &&& ~~~cleanseInlineBits other.bitsOrPointer)
  else if v.isInline then
    { v with bitsOrPointer := (v.bitsOrPointer &&& ~~~other.outOfLine.bits 0) ||| inlineFlag }
  else
    let a := v.outOfLine
    let b := other.outOfLine
    { v with outOfLine :=
      a.combineWords (fun x y => x &&& ~~~y) b.bits (min a.numWords b.numWords) }

def merge (v other : BitVector) (chunk : Malloc) : Option BitVector :=
  if !v.isInline || !other.isInline then v.mergeSlow other chunk
  else some { v with bitsOrPointer := v.bitsOrPointer ||| other.bitsOrPointer }

def filter (v other : BitVector) : BitVector :=
  if !v.isInline || !other.isInline then v.filterSlow other
  else { v with bitsOrPointer := v.bitsOrPointer &&& other.bitsOrPointer }

def exclude (v other : BitVector) : BitVector :=
  if !v.isInline || !other.isInline then v.excludeSlow other
  else { v with bitsOrPointer := (v.bitsOrPointer &&& ~~~other.bitsOrPointer) ||| inlineFlag }

def bitCount (v : BitVector) : Nat :=
  if v.isInline then countOnes (cleanseInlineBits v.bitsOrPointer)
  else ((List.range v.outOfLine.numWords).map fun i => countOnes (v.outOfLine.bits i)).sum

def isEmpty (v : BitVector) : Bool :=
  if v.isInline then cleanseInlineBits v.bitsOrPointer == 0
  else (List.range v.outOfLine.numWords).all fun i => v.outOfLine.bits i == 0

-- The set of the indices whose bit is set.
def members (v : BitVector) : Finset Nat := (Finset.range v.size).filter fun i => v.get i = some true

end BitVector

-- The operations on any number of bit vectors.
inductive BitVectorCall
  | set (i bit : Nat) (chunk : Malloc)
  | add (i bit : Nat) (chunk : Malloc)
  | clear (i bit : Nat)
  | get (i bit : Nat)
  | ensureSize (i numBits : Nat) (chunk : Malloc)
  | clearAll (i : Nat)
  | merge (i j : Nat) (chunk : Malloc)
  | filter (i j : Nat)
  | exclude (i j : Nat)
  | bitCount (i : Nat)
  | isEmpty (i : Nat)

-- What a call returns; `none` is the unit value.
abbrev BitVectorAnswer := Option (Bool ⊕ Nat)

structure BitVectors where
  vectors : Nat → BitVector
  sets : Nat → Finset Nat
  answers : List (BitVectorAnswer × BitVectorAnswer)

namespace BitVectors

-- A call as the code answers it.
def perform (vectors : Nat → BitVector) :
    BitVectorCall → Option (BitVectorAnswer × (Nat → BitVector))
  | .set i bit chunk =>
      ((vectors i).set chunk bit).map fun r => (some (.inl r.1), Function.update vectors i r.2)
  | .add i bit chunk =>
      ((vectors i).add chunk bit).map fun r => (some (.inl r.1), Function.update vectors i r.2)
  | .clear i bit =>
      ((vectors i).clear bit).map fun r => (some (.inl r.1), Function.update vectors i r.2)
  | .get i bit => ((vectors i).get bit).map fun b => (some (.inl b), vectors)
  | .ensureSize i numBits chunk =>
      ((vectors i).ensureSize chunk numBits).map fun v => (none, Function.update vectors i v)
  | .clearAll i => some (none, Function.update vectors i (vectors i).clearAll)
  | .merge i j chunk =>
      ((vectors i).merge (vectors j) chunk).map fun v => (none, Function.update vectors i v)
  | .filter i j => some (none, Function.update vectors i ((vectors i).filter (vectors j)))
  | .exclude i j => some (none, Function.update vectors i ((vectors i).exclude (vectors j)))
  | .bitCount i => some (some (.inr (vectors i).bitCount), vectors)
  | .isEmpty i => some (some (.inl (vectors i).isEmpty), vectors)

-- The same call on sets: `set` and `clear` report the previous membership, and
-- `add` whether the index is new.
def answer (sets : Nat → Finset Nat) : BitVectorCall → BitVectorAnswer × (Nat → Finset Nat)
  | .set i bit _ => (some (.inl (decide (bit ∈ sets i))),
      Function.update sets i (insert bit (sets i)))
  | .add i bit _ => (some (.inl (decide (bit ∉ sets i))),
      Function.update sets i (insert bit (sets i)))
  | .clear i bit => (some (.inl (decide (bit ∈ sets i))),
      Function.update sets i ((sets i).erase bit))
  | .get i bit => (some (.inl (decide (bit ∈ sets i))), sets)
  | .ensureSize _ _ _ => (none, sets)
  | .clearAll i => (none, Function.update sets i ∅)
  | .merge i j _ => (none, Function.update sets i (sets i ∪ sets j))
  | .filter i j => (none, Function.update sets i (sets i ∩ sets j))
  | .exclude i j => (none, Function.update sets i (sets i \ sets j))
  | .bitCount i => (some (.inr (sets i).card), sets)
  | .isEmpty i => (some (.inl (decide (sets i = ∅))), sets)

def initial : BitVectors := ⟨fun _ => BitVector.new, fun _ => ∅, []⟩

def step (s : BitVectors) (c : BitVectorCall) : Option BitVectors :=
  (perform s.vectors c).map fun r =>
    { vectors := r.2
      sets := (answer s.sets c).2
      answers := (r.1, (answer s.sets c).1) :: s.answers }

end BitVectors

def bitVectorMachine : Machine BitVectors BitVectorCall where
  init := fun s => s = BitVectors.initial
  step := BitVectors.step

end Rsgc.Utils
