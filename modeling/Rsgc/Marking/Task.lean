import Mathlib.Algebra.Order.Ring.Nat
import Mathlib.Data.List.Basic
import Mathlib.Data.Nat.Log

namespace Rsgc.Marking

-- The reference slots of an object: those that the `trace` of its type visits
-- and those of its elements, which `iterate_range` visits.
inductive Part
  | field
  | item
deriving DecidableEq, Repr

structure Slot where
  part : Part
  index : Nat
deriving DecidableEq, Repr

-- The `varsize` entry of a vtable with the length of the array. An element
-- has `itemSlots` reference slots. The length is 32 bits wide.
structure VarSize where
  length : Nat
  itemSlots : Nat
  iterateRange : Bool
  length_lt : length < 2 ^ 32
deriving DecidableEq, Repr

structure Shape where
  noHeapPtrs : Bool
  fieldSlots : Nat
  varsize : Option VarSize
deriving DecidableEq, Repr

namespace Shape

def length (s : Shape) : Nat := s.varsize.elim 0 (·.length)

def itemSlots (s : Shape) : Nat := s.varsize.elim 0 (·.itemSlots)

def iterateRange (s : Shape) : Bool := s.varsize.elim false (·.iterateRange)

-- The slots that the iterators of the type enumerate.
def Traced (s : Shape) (slot : Slot) : Prop :=
  match slot.part with
  | .field => slot.index < s.fieldSlots ∧ (s.varsize = none → s.noHeapPtrs = false)
  | .item => s.iterateRange = true ∧ slot.index < s.length * s.itemSlots

instance (s : Shape) (slot : Slot) : Decidable (s.Traced slot) := by
  unfold Traced
  split <;> infer_instance

end Shape

-- An object with the references that its slots hold; other slots are null.
structure Object extends Shape where
  refs : List (Slot × Nat)
  traced : ∀ entry ∈ refs, toShape.Traced entry.1

abbrev Graph := Nat → Object

namespace Object

def ref (o : Object) (slot : Slot) : Option Nat :=
  (o.refs.find? fun entry => entry.1 = slot).map Prod.snd

-- No slot of the part from `start` on, `count` of them, holds a reference.
def Null (o : Object) (part : Part) (start count : Nat) : Prop :=
  ∀ entry ∈ o.refs, entry.1.part = part → entry.1.index < start ∨ start + count ≤ entry.1.index

instance (o : Object) (part : Part) (start count : Nat) : Decidable (o.Null part start count) :=
  inferInstanceAs (Decidable (∀ entry ∈ o.refs, _))

def store (o : Object) (slot : Slot) (h : o.Traced slot) (value : Option Nat) : Object where
  toShape := o.toShape
  refs := value.toList.map (fun r => (slot, r)) ++ o.refs.filter fun entry => entry.1 ≠ slot
  traced := by
    intro entry hentry
    rcases List.mem_append.mp hentry with hnew | hold
    · obtain ⟨r, -, rfl⟩ := List.mem_map.mp hnew
      exact h
    · exact o.traced entry (List.mem_of_mem_filter hold)

end Object

-- `MarkTask`, before its fields are packed into one word.
structure MarkTask where
  obj : Nat
  skipLive : Bool
  weak : Bool
  chunk : Nat
  pow : Nat
deriving DecidableEq, Repr

namespace MarkTask

def CHUNK_BITS : Nat := 10

-- `MarkTask::chunk_size`
def chunkSize : Nat := 2 ^ CHUNK_BITS

def new (obj : Nat) (skipLive weak : Bool) : MarkTask := ⟨obj, skipLive, weak, 0, 0⟩

def new2 (obj : Nat) (skipLive weak : Bool) (chunk pow : Nat) : MarkTask :=
  ⟨obj, skipLive, weak, chunk, pow⟩

def isNotChunked (t : MarkTask) : Bool := t.chunk == 0 && t.pow == 0

end MarkTask

-- What a worker still has to do for the task in its hands: visit the slots of a
-- part of an object, visit one reference, push a task, move the top of its
-- segment to the injector until `target` tasks are left.
inductive Op
  | scan (obj : Nat) (part : Part) (next stop : Nat)
  | visit (ref : Nat)
  | push (task : MarkTask)
  | spill (target : Nat)
deriving DecidableEq, Repr

-- `log2i_graceful`, of a value that is not zero
def log2iGraceful (value : Nat) : Nat := Nat.log2 value

-- A product of two `i32` that is then cast to `usize`; it wraps around.
def i32AsUsize (x : Nat) : Nat :=
  if x % 2 ^ 32 < 2 ^ 31 then x % 2 ^ 32 else x % 2 ^ 32 + (2 ^ 64 - 2 ^ 32)

-- The loop of `do_chunked_array_start`: the full chunks that it pushes and the
-- right end of the last one.
def splitPrefix (obj len : Nat) : (pow chunk lastIdx : Nat) → List MarkTask × Nat
  | 0, _, lastIdx => ([], lastIdx)
  | pow + 1, chunk, lastIdx =>
      if 2 ^ (pow + 1) > 2048 ∧ chunk * 2 < MarkTask.chunkSize then
        let leftChunk := chunk * 2 - 1
        let rightChunk := chunk * 2
        let leftChunkEnd := leftChunk * 2 ^ pow
        if leftChunkEnd < len then
          let rest := splitPrefix obj len pow rightChunk leftChunkEnd
          (.new2 obj true false leftChunk pow :: rest.1, rest.2)
        else splitPrefix obj len pow leftChunk lastIdx
      else ([], lastIdx)

-- The loop of `do_chunked_array`: the chunks pushed and the one that is kept.
def splitChunk (obj : Nat) : (pow chunk : Nat) → List MarkTask × Nat × Nat
  | 0, chunk => ([], chunk, 0)
  | pow + 1, chunk =>
      if 2 ^ (pow + 1) > 2048 ∧ chunk * 2 < MarkTask.chunkSize then
        let rest := splitChunk obj pow (chunk * 2)
        (.new2 obj true false (chunk * 2 - 1) pow :: rest.1, rest.2)
      else ([], chunk, pow + 1)

-- What is done with an array: the chunk tasks pushed and then the range of
-- elements handed to `iterate_range`.
structure ChunkWork where
  pushes : List MarkTask
  range : Option (Nat × Nat)
deriving DecidableEq, Repr

-- The array part of `MarkingTask::do_chunked_array_start`; `none` is the failed
-- assertion on `pow`.
def chunkedArrayStart (obj len : Nat) : Option ChunkWork :=
  if len ≤ 2048 * 2 then some ⟨[], some (0, len)⟩
  else
    let bits := log2iGraceful len
    let bits := if len ≠ 2 ^ bits then bits + 1 else bits
    if bits ≤ 31 then
      let rest :=
        if 31 ≤ bits then
          let rest := splitPrefix obj len (bits - 1) 2 (2 ^ (bits - 1))
          (MarkTask.new2 obj true false 2 (bits - 1) :: rest.1, rest.2)
        else splitPrefix obj len bits 1 0
      some ⟨rest.1, if rest.2 < len then some (rest.2, len) else none⟩
    else none

-- The array part of `MarkingTask::do_chunked_array`, with the bounds of its range
-- as they are before the code puts them into an `i32`.
def chunkedArray (obj chunk pow : Nat) : ChunkWork :=
  let rest := splitChunk obj pow chunk
  ⟨rest.1, some ((rest.2.1 - 1) * 2 ^ rest.2.2, rest.2.1 * 2 ^ rest.2.2)⟩

-- The work on an array as steps of a worker, by the slots of the elements.
def ChunkWork.ops (w : ChunkWork) (obj : Nat) (o : Object) : List Op :=
  w.pushes.map .push ++
    w.range.toList.map fun r => .scan obj .item (r.1 * o.itemSlots) (r.2 * o.itemSlots)

-- `MarkingTask::do_chunked_array_start`
def doChunkedArrayStart (obj : Nat) (o : Object) : Option (List Op) :=
  let trace := Op.scan obj .field 0 o.fieldSlots
  if o.iterateRange then
    (chunkedArrayStart obj o.length).map fun w => trace :: w.ops obj o
  else some [trace]

-- `MarkingTask::do_chunked_array`
def doChunkedArray (obj : Nat) (o : Object) (chunk pow : Nat) : List Op :=
  let w := chunkedArray obj chunk pow
  let range := if o.iterateRange then w.range else none
  ChunkWork.ops ⟨w.pushes, range.map fun r => (i32AsUsize r.1, i32AsUsize r.2)⟩ obj o

-- `MarkingTask::do_task`
def doTask (graph : Graph) (t : MarkTask) : Option (List Op) :=
  let o := graph t.obj
  if t.isNotChunked then
    if o.varsize.isNone then
      some (if o.noHeapPtrs then [] else [.scan t.obj .field 0 o.fieldSlots])
    else doChunkedArrayStart t.obj o
  else some (doChunkedArray t.obj o t.chunk t.pow)

end Rsgc.Marking
