import Rsgc.Lib.Machine
import Rsgc.Lib.Words

namespace Rsgc

-- A piece of memory: where it is, and how many bytes it has.
structure Extent where
  address : Nat
  size : Nat
deriving DecidableEq

namespace Extent

def limit (b : Extent) : Nat := b.address + b.size

def Contains (b : Extent) (start length : Nat) : Prop := b.address ≤ start ∧ start + length ≤ b.limit

end Extent

-- A write of some bytes, and the block that they are meant for.
structure Write where
  block : Extent
  start : Nat
  length : Nat
deriving DecidableEq

-- Memory with the block that was allocated last and all writes so far.
structure Traced where
  memory : Memory
  block : Extent
  writes : List Write

-- What an allocator answers with: a place, and what the memory there happens to hold.
structure Grant where
  address : Nat
  contents : Nat → UInt8

namespace Traced

variable {t t' : Traced} {chunk : Grant} {addr n size : Nat} {bytes : Nat → UInt8}

def write (t : Traced) (addr n : Nat) (bytes : Nat → UInt8) : Traced :=
  { t with memory := t.memory.writeBytes addr n bytes, writes := ⟨t.block, addr, n⟩ :: t.writes }

-- A new block is at an even address, in the address space, and apart from the last block,
-- which has not been given back.
def Grants (t : Traced) (chunk : Grant) (size : Nat) : Prop :=
  2 ∣ chunk.address ∧ chunk.address + size ≤ 2 ^ 64 ∧
    (t.block.limit ≤ chunk.address ∨ chunk.address + size ≤ t.block.address)

instance : Decidable (t.Grants chunk size) := inferInstanceAs (Decidable (_ ∧ _ ∧ (_ ∨ _)))

-- Any answer other than a new block is not one of an allocator.
def malloc (t : Traced) (chunk : Grant) (size : Nat) : Option Traced :=
  if t.Grants chunk size then
    some { t with
      memory := t.memory.writeBytes chunk.address size chunk.contents
      block := ⟨chunk.address, size⟩ }
  else none

-- Every write is within the block that it is meant for.
def Inside (t : Traced) : Prop := ∀ w ∈ t.writes, w.block.Contains w.start w.length

@[simp] theorem write_block : (t.write addr n bytes).block = t.block := rfl

theorem inside_write :
    (t.write addr n bytes).Inside ↔ t.block.Contains addr n ∧ t.Inside := List.forall_mem_cons

theorem inside_malloc (h : t.malloc chunk size = some t') :
    t.Grants chunk size ∧ t'.block = ⟨chunk.address, size⟩ ∧ (t'.Inside ↔ t.Inside) ∧
      ∀ a, a < chunk.address ∨ chunk.address + size ≤ a → t'.memory a = t.memory a := by
  unfold malloc at h
  obtain ⟨hgrants, rfl⟩ := guard_eq_some.mp h
  exact ⟨hgrants, rfl, Iff.rfl, fun a ha => Memory.writeBytes_of_not _ _ ha⟩

end Traced

end Rsgc
