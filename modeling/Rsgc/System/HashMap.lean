import Mathlib.Algebra.Group.Nat.Defs
import Rsgc.Lib.Buckets
import Rsgc.Lib.Except
import Rsgc.Lib.Keyed

namespace Rsgc.System

-- Where a call panics: in `with_capacity`, at a remainder by zero, at an index, at the
-- 32-bit counter, or at an `unwrap`.
inductive HashPanic
  | capacityOverflow
  | remainderByZero
  | indexOutOfBounds
  | countOverflow
  | unwrapNone
deriving DecidableEq, Repr

structure HashNode (K V : Type) where
  hash : Nat
  key : K
  value : Option V
deriving DecidableEq, Repr

-- `nodes` gives the chains of the array, which has `len` elements; `next` is the rest
-- of a chain.
structure HashMap (K V : Type) where
  count : Nat
  len : Nat
  nodes : Nat → List (HashNode K V)

namespace HashMap

variable {K V : Type} [BEq K] (hash : K → Nat)

-- `Array::new` keeps its length in 32 bits.
def newArrayLen (len : Nat) : Nat := len % 2 ^ 32

def withCapacity (cap : Nat) : Except HashPanic (HashMap K V) := do
  let cap := if cap < 16 then 16 else cap
  ensure (cap < 2 ^ 32 - 1) HashPanic.capacityOverflow
  pure ⟨0, newArrayLen cap, fun _ => []⟩

def position (hash len : Nat) : Except HashPanic Nat := do
  ensure (len ≠ 0) HashPanic.remainderByZero
  pure (hash % len)

-- `(len as f64 * 0.75) as u32`
def threshold (len : Nat) : Nat := len * 3 / 4

-- The loop along a chain, which stops at the entry of the key: what it has passed,
-- the entry, and what comes next.
def search (h : Nat) (key : K) : List (HashNode K V) →
    Option (List (HashNode K V) × HashNode K V × List (HashNode K V))
  | [] => none
  | entry :: rest =>
      if entry.hash = h ∧ (entry.key == key) = true then some ([], entry, rest)
      else (search h key rest).map fun r => (entry :: r.1, r.2.1, r.2.2)

def setChain (m : HashMap K V) (index : Nat) (chain : List (HashNode K V)) : HashMap K V :=
  { m with nodes := Function.update m.nodes index chain }

-- One entry goes to the front of its new chain.
def moveEntry (hash : K → Nat) (dstLen : Nat) (dst : Nat → List (HashNode K V))
    (entry : HashNode K V) : Except HashPanic (Nat → List (HashNode K V)) := do
  let j ← position (hash entry.key) dstLen
  pure (Function.update dst j (entry :: dst j))

def rehashBuckets (hash : K → Nat) (srcLen dstLen : Nat) (src dst : Nat → List (HashNode K V)) :
    Except HashPanic (Nat → List (HashNode K V)) :=
  (List.range srcLen).foldlM (fun dst i => (src i).foldlM (moveEntry hash dstLen) dst) dst

def resize (hash : K → Nat) (m : HashMap K V) : Except HashPanic (HashMap K V) := do
  let len := newArrayLen (m.len * 2)
  let nodes ← rehashBuckets hash m.len len m.nodes fun _ => []
  pure { m with len := len, nodes := nodes }

def incrementCount (m : HashMap K V) : Except HashPanic (HashMap K V) := do
  ensure (m.count + 1 < 2 ^ 32) HashPanic.countOverflow
  pure { m with count := m.count + 1 }

-- A new entry in front of a chain.
def prepend (m : HashMap K V) (index : Nat) (h : Nat) (key : K) (value : V) : HashMap K V :=
  m.setChain index (⟨h, key, some value⟩ :: m.nodes index)

def growForPut (m : HashMap K V) : Except HashPanic (HashMap K V) :=
  if threshold m.len ≤ m.count then resize hash m else pure m

def put (m : HashMap K V) (key : K) (value : V) : Except HashPanic (Option V × HashMap K V) := do
  let pos ← position (hash key) m.len
  match search (hash key) key (m.nodes pos) with
  | some (before, entry, after) =>
      pure (entry.value, m.setChain pos (before ++ { entry with value := some value } :: after))
  | none => do
      let m ← growForPut hash m
      let pos ← position (hash key) m.len
      let counted ← m.incrementCount
      pure (none, counted.prepend pos (hash key) key value)

def remove (m : HashMap K V) (key : K) : Except HashPanic (Option V × HashMap K V) := do
  let pos ← position (hash key) m.len
  match search (hash key) key (m.nodes pos) with
  | some (before, entry, after) => pure (entry.value, m.setChain pos (before ++ after))
  | none => pure (none, m)

def get (m : HashMap K V) (key : K) : Except HashPanic (Option V) := do
  let pos ← position (hash key) m.len
  match search (hash key) key (m.nodes pos) with
  | some (_, entry, _) => pure entry.value
  | none => pure none

-- The reference that `get_mut` returns is written through with `f`.
def getMut (m : HashMap K V) (key : K) (f : V → V) :
    Except HashPanic (Option V × HashMap K V) := do
  let pos ← position (hash key) m.len
  match search (hash key) key (m.nodes pos) with
  | some (before, entry, after) =>
      pure (entry.value,
        m.setChain pos (before ++ { entry with value := entry.value.map f } :: after))
  | none => pure (none, m)

def unwrap (value : Option V) : Except HashPanic V :=
  match value with
  | some v => pure v
  | none => throw HashPanic.unwrapNone

-- What is done with an occupied entry.
inductive OccupiedCall (V : Type)
  | get
  | getMut (f : V → V)
  | insert (value : V)
  | remove

-- `OccupiedEntry` for the entry that the search has found in the chain `pos`.
def occupied (m : HashMap K V) (pos : Nat) (before : List (HashNode K V)) (entry : HashNode K V)
    (after : List (HashNode K V)) : OccupiedCall V → Except HashPanic (V × HashMap K V)
  | .get => do
      let old ← unwrap entry.value
      pure (old, m)
  | .getMut f => do
      let old ← unwrap entry.value
      pure (old, m.setChain pos (before ++ { entry with value := some (f old) } :: after))
  | .insert value => do
      let old ← unwrap entry.value
      pure (old, m.setChain pos (before ++ { entry with value := some value } :: after))
  | .remove => do
      let taken := m.setChain pos (before ++ { entry with value := none } :: after)
      let removed ← taken.remove hash entry.key
      let old ← unwrap entry.value
      pure (old, removed.2)

-- `VacantEntry::insert` masks the hash where all others take the remainder.
def vacantInsert (m : HashMap K V) (h : Nat) (key : K) (value : V) :
    Except HashPanic (HashMap K V) := do
  let i := m.len - 1 &&& h
  ensure (i < m.len) HashPanic.indexOutOfBounds
  let m ← (m.prepend i h key value).incrementCount
  if threshold m.len < m.count then resize hash m else pure m

-- `entry`, and what its caller does with either result.
def entry (m : HashMap K V) (key : K) (vacant : Option V) (call : OccupiedCall V) :
    Except HashPanic (Option V × HashMap K V) := do
  let pos ← position (hash key) m.len
  match search (hash key) key (m.nodes pos) with
  | some (before, node, after) => do
      let r ← m.occupied hash pos before node after call
      pure (some r.1, r.2)
  | none =>
      match vacant with
      | none => pure (none, m)
      | some value => do
          let m ← m.vacantInsert hash (hash key) key value
          pure (none, m)

-- `Iter`: the next index, and the rest of the chain before it.
structure Iter (K V : Type) where
  index : Nat
  chain : List (HashNode K V)

def iter : Iter K V := ⟨0, []⟩

def yieldEntry (node : HashNode K V) (it : Iter K V) :
    Except HashPanic (Option (K × V) × Iter K V) := do
  let value ← unwrap node.value
  pure (some (node.key, value), it)

-- The loop of `next` over the array; `rounds` is the number of chains that are left.
def nextChain (m : HashMap K V) : Nat → Nat → Except HashPanic (Option (K × V) × Iter K V)
  | 0, index => pure (none, ⟨index, []⟩)
  | rounds + 1, index =>
      match m.nodes index with
      | node :: rest => yieldEntry node ⟨index + 1, rest⟩
      | [] => nextChain m rounds (index + 1)

def next (m : HashMap K V) (it : Iter K V) : Except HashPanic (Option (K × V) × Iter K V) :=
  match it.chain with
  | node :: rest => yieldEntry node ⟨it.index, rest⟩
  | [] => m.nextChain (m.len - it.index) it.index

-- The pairs that the iterator yields, until it has no more; `fuel` bounds their number.
def collect (m : HashMap K V) : Nat → Iter K V → Except HashPanic (Option (List (K × V)))
  | 0, _ => pure none
  | fuel + 1, it => do
      let r ← m.next it
      match r.1 with
      | none => pure (some [])
      | some pair => do
          let rest ← collect m fuel r.2
          pure (rest.map (pair :: ·))

end HashMap

end Rsgc.System
