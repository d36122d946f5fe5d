import Mathlib.Algebra.Group.Int.Defs
import Mathlib.Algebra.Group.Nat.Defs
import Rsgc.Lib.Except
import Rsgc.Lib.Profile
import Rsgc.Lib.Slots

namespace Rsgc.System

-- How a call ends that does not return: `access` is one to memory that the list
-- does not have, or that holds no value.
inductive Fault
  | panic
  | outOfMemory
  | access
deriving DecidableEq, Repr

-- The result of plain arithmetic, or the panic of a debug build.
def orPanic {β : Type} : Option β → Except Fault β
  | some value => pure value
  | none => throw .panic

-- `a - b` for two `usize`
def plainSub (p : Profile) (a b : Nat) : Except Fault Nat :=
  orPanic (p.unsigned 64 ((a : Int) - b))

theorem plainSub_eq (p : Profile) {a b : Nat} (hle : b ≤ a) (ha : a < 2 ^ 64) :
    plainSub p a b = .ok (a - b) := by
  unfold plainSub
  rw [Profile.unsigned_eq (n := a - b) (by omega) (by omega)]
  rfl

theorem plainSub_debug (a b : Nat) :
    plainSub .debug a b = .error .panic ∨ b ≤ a ∧ plainSub .debug a b = .ok (a - b) := by
  unfold plainSub Profile.unsigned
  split
  · have hvalue : ((a : Int) - b).toNat = a - b := by omega
    rw [hvalue]
    exact Or.inr ⟨by omega, rfl⟩
  · exact Or.inl rfl

-- What `allocate_varsize` answers to a request for so many elements, whose size in bytes
-- is below 2^64.
abbrev Allocator := Nat → Bool

def anyMemory : Allocator := fun _ => true

-- `RawArray` keeps its capacity and its length in 32 bits. `allocated` is the number
-- of elements that memory was asked for.
structure RawArray (α : Type) where
  cap : Nat
  len : Nat
  allocated : Nat
  data : Slots α

namespace RawArray

variable {α : Type}

def new (available : Allocator) (cap : Nat) : Except Fault (RawArray α) := do
  ensure (available cap = true) Fault.outOfMemory
  pure ⟨cap % 2 ^ 32, 0, cap, fun _ => none⟩

def setLen (a : RawArray α) (len : Nat) : RawArray α := { a with len := len % 2 ^ 32 }

-- `as_slice()[idx]`
def index (a : RawArray α) (idx : Nat) : Except Fault Nat := do
  ensure (idx < a.cap) Fault.panic
  pure idx

def read (a : RawArray α) (slot : Nat) : Except Fault α := do
  ensure (slot < a.allocated) Fault.access
  match a.data slot with
  | some x => pure x
  | none => throw .access

def write (a : RawArray α) (slot : Nat) (x : α) : Except Fault (RawArray α) := do
  ensure (slot < a.allocated) Fault.access
  pure { a with data := Function.update a.data slot (some x) }

-- `ptr::copy` within the array
def copy (a : RawArray α) (src dst count : Nat) : Except Fault (RawArray α) := do
  ensure (src + count ≤ a.allocated ∧ dst + count ≤ a.allocated) Fault.access
  pure { a with data := a.data.move src dst count }

-- `ptr::copy_nonoverlapping` from somewhere else
def fill (a : RawArray α) (dst : Nat) (values : List α) : Except Fault (RawArray α) := do
  ensure (dst + values.length ≤ a.allocated) Fault.access
  pure { a with data := a.data.fill dst values }

-- `mem::swap` of two elements
def swap (a : RawArray α) (i j : Nat) : Except Fault (RawArray α) := do
  let x ← a.read i
  let y ← a.read j
  let a ← a.write i y
  a.write j x

end RawArray

def usizeMax : Nat := 2 ^ 64 - 1

-- `next_capacity`, where `elemSize` is `size_of::<T>()`
def nextCapacity (elemSize capacity : Nat) : Nat :=
  if capacity = 0 then
    match elemSize with
    | 1 => 8
    | elemSize => if 2 ≤ elemSize ∧ elemSize ≤ 1024 then 4 else 1
  else min (capacity * 2) usizeMax

-- An `ArrayList` is the handle of its array. The calls to the write barrier are left
-- out: it does not touch the elements.
abbrev ArrayList := RawArray

namespace ArrayList

variable {α : Type}

def maxElems : Nat := 2 ^ 32 - 1

def withCapacity (available : Allocator) (capacity : Nat) : Except Fault (ArrayList α) :=
  RawArray.new available capacity

def grow (a : ArrayList α) (available : Allocator) (newCap : Nat) :
    Except Fault (ArrayList α) := do
  if a.cap = newCap then pure a
  else
    let newBuf : RawArray α ← RawArray.new available newCap
    ensure (a.len ≤ a.allocated ∧ a.len ≤ newBuf.allocated) Fault.access
    pure ({ newBuf with
      data := fun i => if i < a.len then a.data i else newBuf.data i }.setLen a.len)

-- The space for one more element.
def growForPush (a : ArrayList α) (elemSize : Nat) (available : Allocator) :
    Except Fault (ArrayList α) :=
  if a.len = a.cap then a.grow available (nextCapacity elemSize a.cap) else pure a

def push (a : ArrayList α) (elemSize : Nat) (available : Allocator) (val : α) :
    Except Fault (ArrayList α) := do
  let len := a.len
  let a ← a.growForPush elemSize available
  let a ← a.write len val
  pure (a.setLen (len + 1))

def pop (a : ArrayList α) : Except Fault (Option α × ArrayList α) := do
  if a.len = 0 then pure (none, a)
  else
    let val ← a.read (a.len - 1)
    pure (some val, a.setLen (a.len - 1))

def get (a : ArrayList α) (idx : Nat) : Except Fault (Option α) := do
  if a.len ≤ idx then pure none
  else
    let slot ← a.index idx
    let val ← a.read slot
    pure (some val)

def set (a : ArrayList α) (idx : Nat) (val : α) : Except Fault (Option α × ArrayList α) := do
  if a.len ≤ idx then pure (none, a)
  else
    let slot ← a.index idx
    let oldVal ← a.read slot
    let a ← a.write slot val
    pure (some oldVal, a)

-- `revswap`, which has `count` swaps before it.
def revswap (a : ArrayList α) (n count : Nat) : Nat → Except Fault (ArrayList α)
  | 0 => pure a
  | fuel + 1 => do
      let a ← a.swap count (n - 1 - count)
      revswap a n (count + 1) fuel

def reverseInPlace (a : ArrayList α) : Except Fault (ArrayList α) :=
  a.revswap a.len 0 (a.len / 2)

def remove (a : ArrayList α) (idx : Nat) : Except Fault (Option α × ArrayList α) := do
  let len := a.len
  if len ≤ idx then pure (none, a)
  else
    let slot ← a.index idx
    let val ← a.read slot
    ensure (idx + 1 ≤ a.cap) Fault.panic
    let a ← a.copy (idx + 1) idx (len - idx - 1)
    pure (some val, a.setLen (len - 1))

-- The loop of `try_reserve`. It doubles the capacity at most 64 times.
def reserveCapacity (elemSize totalRequired : Nat) : Nat → Nat → Nat
  | 0, capacity => capacity
  | fuel + 1, capacity =>
      if capacity < totalRequired then
        reserveCapacity elemSize totalRequired fuel (nextCapacity elemSize capacity)
      else capacity

-- `is_empty` of the slice that a list stands for
def isEmpty (a : ArrayList α) : Except Fault Bool := do
  ensure (a.len ≤ a.cap) Fault.panic
  pure (a.len = 0)

def tryReserve (a : ArrayList α) (elemSize : Nat) (available : Allocator) (additional : Nat) :
    Except Fault (Bool × ArrayList α) := do
  let totalRequired := min (a.len + additional) usizeMax
  if totalRequired ≤ a.cap then pure (true, a)
  else
    let newCapacity := reserveCapacity elemSize totalRequired 64 (nextCapacity elemSize a.cap)
    let empty ← a.isEmpty
    if !empty ∧ maxElems < totalRequired then pure (false, a)
    else
      let newCapacity := if maxElems < additional then maxElems else newCapacity
      let a ← a.grow available newCapacity
      pure (true, a)

def reserve (a : ArrayList α) (elemSize : Nat) (available : Allocator) (additional : Nat) :
    Except Fault (ArrayList α) := do
  let (reserved, a) ← a.tryReserve elemSize available additional
  ensure (reserved = true) Fault.panic
  pure a

def truncate (a : ArrayList α) (len : Nat) : ArrayList α :=
  if a.len ≤ len then a else a.setLen len

def swapRemove (a : ArrayList α) (idx : Nat) : Except Fault (α × ArrayList α) := do
  let len := a.len
  ensure (idx < len) Fault.panic
  let lastSlot ← a.index (len - 1)
  let last ← a.read lastSlot
  let slot ← a.index idx
  let val ← a.read slot
  let a ← a.write slot last
  pure (val, a.setLen (len - 1))

def pushAll (a : ArrayList α) (elemSize : Nat) (available : Allocator) (value : α) :
    Nat → Except Fault (ArrayList α)
  | 0 => pure a
  | count + 1 => do
      let a ← a.push elemSize available value
      pushAll a elemSize available value count

def resize (a : ArrayList α) (elemSize : Nat) (available : Allocator) (newLen : Nat) (value : α) :
    Except Fault (ArrayList α) := do
  let len := a.len
  if len < newLen then
    let a ← a.reserve elemSize available (newLen - len)
    a.pushAll elemSize available value (newLen - len)
  else if newLen < len then pure (a.truncate newLen)
  else pure a

-- A closure may change its argument, and remember the arguments before it, the last
-- one first.
abbrev Closure (α : Type) := List α → α → α × Bool

-- The loop of `retain_mut`: `fuel` elements are left to read.
def retainLoop (f : Closure α) (a : ArrayList α) (read write : Nat) (seen : List α) :
    Nat → Except Fault (ArrayList α × Nat)
  | 0 => pure (a, write)
  | fuel + 1 => do
      let x ← a.read read
      let (y, shouldRetain) := f seen x
      let a ← a.write read y
      let a ← if shouldRetain ∧ read ≠ write then a.swap read write else pure a
      let write := if shouldRetain then write + 1 else write
      retainLoop f a (read + 1) write (x :: seen) fuel

-- The pointers move in bytes.
def retainMut (a : ArrayList α) (elemSize : Nat) (f : Closure α) :
    Except Fault (ArrayList α) := do
  let (a, write) ← a.retainLoop f 0 0 [] a.len
  ensure (elemSize ≠ 0) Fault.panic
  pure (a.truncate (write * elemSize / elemSize))

-- `retain` has the same body, with a closure that cannot change its argument.
def retain (a : ArrayList α) (elemSize : Nat) (f : List α → α → Bool) :
    Except Fault (ArrayList α) :=
  a.retainMut elemSize fun seen x => (x, f seen x)

-- The loop of `split_off`, whose bounds are computed before it.
def splitOffLoop (elemSize : Nat) (available : Allocator) (a other : ArrayList α) (i : Nat) :
    Nat → Except Fault (ArrayList α × ArrayList α)
  | 0 => pure (a, other)
  | fuel + 1 => do
      let (val, a) ← a.remove i
      match val with
      | none => throw .panic
      | some val =>
          let other ← other.push elemSize available val
          splitOffLoop elemSize available a other (i + 1) fuel

-- The list, and the one that was split off. Behind the end there is nothing to go over.
def splitOff (p : Profile) (a : ArrayList α) (elemSize : Nat) (available : Allocator)
    (at' : Nat) : Except Fault (ArrayList α × ArrayList α) := do
  let capacity ← plainSub p a.len at'
  let other ← withCapacity available capacity
  splitOffLoop elemSize available a other at' (a.len - at')

-- The elements of the slice that a list stands for.
def slice (a : ArrayList α) : Except Fault (List α) := do
  ensure (a.len ≤ a.cap) Fault.panic
  (List.range a.len).mapM a.read

end ArrayList

end Rsgc.System
