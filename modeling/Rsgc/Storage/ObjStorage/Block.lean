import Rsgc.Lib.Bytes
import Rsgc.Utils.Rounding

namespace Rsgc.Storage

open Utils (alignUp usizeSub)

def BULK_ALLOCATE_LIMIT : Nat := 8 * 8

def SECTION_SIZE : Nat := 1 * 8

def SECTION_COUNT : Nat := 8

def BLOCK_ALIGNMENT : Nat := 8 * SECTION_SIZE

namespace Block

-- The words of a new `Block`, in the order of its fields: `data`, `allocated_bitmask`,
-- `owner_address`, `memory`, `active_index`, the two links of `allocation_list_entry`,
-- `deferred_updates_next` and `release_refcount`.
def new (owner memory : Nat) : List Nat :=
  List.replicate BULK_ALLOCATE_LIMIT 0 ++ [0, owner, memory, 0, 0, 0, 0, 0]

-- `size_of::<Block>()`
def byteSize : Nat := 8 * (new 0 0).length

def ownerOffset : Nat := 8 * (BULK_ALLOCATE_LIMIT + 1)

def allocationSize : Nat := byteSize + BLOCK_ALIGNMENT - 8

-- Pointers wrap around.
def ptrAdd (ptr bytes : Nat) : Nat := (ptr + bytes) % 2 ^ 64

def write (m : Memory) (addr : Nat) : List Nat → Memory
  | [] => m
  | word :: words => write (m.writeLE addr 8 word) (ptrAdd addr 8) words

-- What `malloc` returns is `mem`.
def newBlock (m : Memory) (owner mem : Nat) : Nat × Memory :=
  let block := alignUp mem BLOCK_ALIGNMENT
  (block, write m block (new owner mem))

def getPointer (block index : Nat) : Option Nat :=
  if index < BULK_ALLOCATE_LIMIT then some (ptrAdd block (8 * index)) else none

def ownerAddress (m : Memory) (block : Nat) : Nat := m.readLE (ptrAdd block ownerOffset) 8

-- The loop over the sections.
def search (m : Memory) (owner : Nat) : Nat → Nat → Option Nat
  | 0, _ => none
  | count + 1, candidate =>
      if ownerAddress m candidate = owner then some candidate
      else search m owner count (ptrAdd candidate (8 * SECTION_SIZE))

def firstSection (ptr : Nat) : Nat :=
  usizeSub (Utils.alignDown ptr BLOCK_ALIGNMENT) (8 * (SECTION_SIZE * (SECTION_COUNT - 1)))

-- The null pointer is `none`.
def blockForPtr (m : Memory) (owner ptr : Nat) : Option Nat :=
  search m owner SECTION_COUNT (firstSection ptr)

-- The sections that `block_for_ptr` may look at.
def sections (ptr : Nat) : List Nat :=
  (List.range SECTION_COUNT).map fun i => ptrAdd (firstSection ptr) (8 * SECTION_SIZE * i)

-- From each of its entries the block is found, as long as its owner's address stays
-- where it was written and no other section has it at that place.
def Found (m : Memory) (owner block : Nat) : Prop :=
  ∀ m' : Memory, ownerAddress m' block = ownerAddress m block →
    ∀ index ptr, getPointer block index = some ptr →
      (∀ s ∈ sections ptr, s ≠ block → ownerAddress m' s ≠ owner) →
        blockForPtr m' owner ptr = some block

structure WellPlaced (m : Memory) (owner mem : Nat) : Prop where
  aligned : BLOCK_ALIGNMENT ∣ (newBlock m owner mem).1
  inside : mem ≤ (newBlock m owner mem).1 ∧
    (newBlock m owner mem).1 + byteSize ≤ mem + allocationSize
  found : Found (newBlock m owner mem).2 owner (newBlock m owner mem).1

variable {m : Memory} {owner mem block addr : Nat}

theorem ptrAdd_lt (ptr bytes : Nat) : ptrAdd ptr bytes < 2 ^ 64 := Nat.mod_lt _ (by decide)

theorem ptrAdd_zero (haddr : addr < 2 ^ 64) : ptrAdd addr 0 = addr := Nat.mod_eq_of_lt haddr

theorem ptrAdd_ptrAdd (ptr a b : Nat) : ptrAdd (ptrAdd ptr a) b = ptrAdd ptr (a + b) := by
  unfold ptrAdd
  omega

theorem dvd_ptrAdd {a b : Nat} (ha : 8 ∣ a) (hb : 8 ∣ b) : 8 ∣ ptrAdd a b := by
  unfold ptrAdd
  omega

section Write

theorem write_apart {words : List Nat} {a : Nat} (haddr : addr < 2 ^ 64) (hdvd : 8 ∣ addr)
    (hapart : ∀ i < words.length, a < ptrAdd addr (8 * i) ∨ ptrAdd addr (8 * i) + 8 ≤ a) :
    write m addr words a = m a := by
  induction words generalizing m addr with
  | nil => rfl
  | cons word words ih =>
      have hfirst := hapart 0 (Nat.succ_pos _)
      rw [Nat.mul_zero, ptrAdd_zero haddr] at hfirst
      unfold write
      rw [ih (ptrAdd_lt addr 8) (dvd_ptrAdd hdvd (Nat.dvd_refl 8)), Memory.writeLE_of_not _ _ hfirst]
      intro i hi
      rw [ptrAdd_ptrAdd, Nat.add_comm]
      exact hapart (i + 1) (Nat.succ_lt_succ hi)

-- Each word can be read where it was written, if the block is not longer than the memory.
theorem readLE_write {words : List Nat} {word index : Nat} (haddr : addr < 2 ^ 64) (hdvd : 8 ∣ addr)
    (hlength : 8 * words.length ≤ 2 ^ 64) (hword : words[index]? = some word) :
    (write m addr words).readLE (ptrAdd addr (8 * index)) 8 = word % 256 ^ 8 := by
  induction words generalizing m addr index with
  | nil => cases hword
  | cons first words ih =>
      have hnext := ptrAdd_lt addr 8
      have hdvd' := dvd_ptrAdd hdvd (Nat.dvd_refl 8)
      rw [List.length_cons] at hlength
      unfold write
      cases index with
      | zero =>
          obtain rfl : first = word := Option.some.inj hword
          rw [Nat.mul_zero, ptrAdd_zero haddr, ← Memory.readLE_writeLE m addr first (Nat.le_refl 8)]
          refine Memory.readLE_congr fun a hlow hhigh => write_apart hnext hdvd' fun i hi => ?_
          rw [ptrAdd_ptrAdd]
          unfold ptrAdd
          omega
      | succ index =>
          have hrest := ih (m := m.writeLE addr 8 first) hnext hdvd' (by omega) hword
          rwa [ptrAdd_ptrAdd, Nat.add_comm] at hrest

end Write

section Search

theorem search_finds {target count j start : Nat} (hj : j < count)
    (htarget : ptrAdd start (8 * SECTION_SIZE * j) = target) (hstart : start < 2 ^ 64)
    (howner : ownerAddress m target = owner)
    (hbefore : ∀ i < j, ownerAddress m (ptrAdd start (8 * SECTION_SIZE * i)) ≠ owner) :
    search m owner count start = some target := by
  induction count generalizing start j with
  | zero => omega
  | succ count ih =>
      unfold search
      cases j with
      | zero =>
          rw [Nat.mul_zero, ptrAdd_zero hstart] at htarget
          rw [htarget, if_pos howner]
      | succ j =>
          have hfirst := hbefore 0 (Nat.succ_pos j)
          rw [Nat.mul_zero, ptrAdd_zero hstart] at hfirst
          rw [if_neg hfirst]
          refine ih (Nat.lt_of_succ_lt_succ hj) ?_ (ptrAdd_lt ..) fun i hi => ?_
          · rw [ptrAdd_ptrAdd, ← htarget, Nat.mul_succ, Nat.add_comm]
          · have hnext := hbefore (i + 1) (Nat.succ_lt_succ hi)
            rwa [Nat.mul_succ, Nat.add_comm, ← ptrAdd_ptrAdd] at hnext

-- An entry is in one of the first eight sections of its block.
theorem firstSection_entry {index ptr : Nat} (hdvd : BLOCK_ALIGNMENT ∣ block)
    (hblock : block < 2 ^ 64) (hptr : getPointer block index = some ptr) :
    index < BULK_ALLOCATE_LIMIT ∧
      ptrAdd (firstSection ptr) (8 * SECTION_SIZE * (7 - index / 8)) = block := by
  obtain ⟨hindex, heq⟩ := Option.ite_none_right_eq_some.mp hptr
  obtain rfl := Option.some.inj heq
  have hdown : Utils.alignDown (ptrAdd block (8 * index)) BLOCK_ALIGNMENT = _ :=
    Utils.alignDown_eq (k := 6) (ptrAdd_lt block (8 * index)) (by decide)
  refine ⟨hindex, ?_⟩
  unfold firstSection
  rw [hdown]
  simp only [BULK_ALLOCATE_LIMIT, BLOCK_ALIGNMENT, SECTION_SIZE, SECTION_COUNT, usizeSub, ptrAdd]
    at hindex hdvd ⊢
  omega

theorem found_of_owner (hdvd : BLOCK_ALIGNMENT ∣ block) (hblock : block < 2 ^ 64)
    (howner : ownerAddress m block = owner) : Found m owner block := by
  intro m' hsame index ptr hptr hothers
  obtain ⟨hindex, htarget⟩ := firstSection_entry hdvd hblock hptr
  have hstart : firstSection ptr < 2 ^ 64 := Nat.mod_lt _ (by decide)
  refine search_finds (j := 7 - index / 8) ?_ htarget hstart (hsame.trans howner) fun i hi => ?_
  · unfold SECTION_COUNT
    omega
  · refine hothers _ (List.mem_map_of_mem (List.mem_range.mpr ?_)) ?_
    · unfold SECTION_COUNT
      omega
    · rw [← htarget]
      simp only [SECTION_SIZE, ptrAdd]
      omega

end Search

-- The block is aligned and has its owner's address, wherever `align_up` puts it.
theorem newBlock_owner (m : Memory) (mem : Nat) (howner : owner < 2 ^ 64) :
    BLOCK_ALIGNMENT ∣ (newBlock m owner mem).1 ∧ (newBlock m owner mem).1 < 2 ^ 64 ∧
      ownerAddress (newBlock m owner mem).2 (newBlock m owner mem).1 = owner := by
  have hup : alignUp mem BLOCK_ALIGNMENT = _ := Utils.alignUp_eq (k := 6) (by decide)
  have hdvd : BLOCK_ALIGNMENT ∣ alignUp mem BLOCK_ALIGNMENT := hup ▸ Nat.dvd_mul_left _ _
  have hlt : alignUp mem BLOCK_ALIGNMENT < 2 ^ 64 := by
    rw [hup]
    exact Nat.lt_of_le_of_lt (Nat.div_mul_le_self _ _) (Nat.mod_lt _ (by decide))
  have hdvd' : 8 ∣ alignUp mem BLOCK_ALIGNMENT := Nat.dvd_trans (by decide) hdvd
  have hlength : (new owner mem).length = 72 := by simp [new, BULK_ALLOCATE_LIMIT]
  have hword : (new owner mem)[65]? = some owner := by
    unfold new
    rw [List.getElem?_append_right (by rw [List.length_replicate]; decide), List.length_replicate]
    rfl
  have hread := readLE_write (m := m) hlt hdvd' (by omega) hword
  rw [Nat.mod_eq_of_lt (show owner < 256 ^ 8 from howner)] at hread
  have hoffset : ownerOffset = 8 * 65 := rfl
  refine ⟨hdvd, hlt, ?_⟩
  simp only [ownerAddress, newBlock, hoffset]
  exact hread

-- Wherever `malloc` puts the memory of a block, `align_up` puts the block in front of it,
-- or near the end of the address space.
theorem newBlock_outside (m : Memory) (owner mem : Nat) :
    ¬(mem ≤ (newBlock m owner mem).1 ∧
      (newBlock m owner mem).1 + byteSize ≤ mem + allocationSize) := by
  have hup : Utils.alignUp mem (2 ^ 6) = _ := Utils.alignUp_eq (by decide)
  have hblock : (newBlock m owner mem).1 = Utils.alignUp mem (2 ^ 6) := rfl
  have hsize : byteSize = 576 := rfl
  have hallocation : allocationSize = 632 := rfl
  rw [hblock, hup]
  unfold usizeSub
  omega

theorem block_misplaced (m : Memory) (mem : Nat) (howner : owner < 2 ^ 64) :
    ¬WellPlaced m owner mem ∧ BLOCK_ALIGNMENT ∣ (newBlock m owner mem).1 ∧
      Found (newBlock m owner mem).2 owner (newBlock m owner mem).1 := by
  obtain ⟨hdvd, hlt, hread⟩ := newBlock_owner m mem howner
  exact ⟨fun h => newBlock_outside m owner mem h.inside, hdvd, found_of_owner hdvd hlt hread⟩

theorem block_misplaced_page : ¬WellPlaced (fun _ => 0) 1024 4112 ∧
    BLOCK_ALIGNMENT ∣ (newBlock (fun _ => 0) 1024 4112).1 ∧
      Found (newBlock (fun _ => 0) 1024 4112).2 1024 (newBlock (fun _ => 0) 1024 4112).1 :=
  block_misplaced _ _ (by decide)

-- Of the 632 bytes at 4112 the block takes none but the last: it starts at 4032.
theorem block_before_memory : (newBlock (fun _ => 0) 1024 4112).1 = 4032 ∧
    ¬WellPlaced (fun _ => 0) 1024 4112 :=
  ⟨by decide, fun h => absurd h.inside.1 (by decide)⟩

-- Rounded up, a block would lie in its memory: `malloc` aligns it to words at least.
theorem rounded_block_inside {p : Profile} (hmem : 8 ∣ mem) (hfits : mem + allocationSize < 2 ^ 63) :
    ∃ block, Utils.roundUp p mem BLOCK_ALIGNMENT 0 = some block ∧
      mem ≤ block ∧ block + byteSize ≤ mem + allocationSize := by
  have hsize : byteSize = 576 := rfl
  have hallocation : allocationSize = 632 := rfl
  have halign : BLOCK_ALIGNMENT = 2 ^ 6 := rfl
  have hup := isLeast_multiple mem (show 0 < 2 ^ 6 by decide)
  have hround := (Utils.roundUpTo_iff p (k := 6) (by decide) hup (by omega)).mpr (by omega)
  exact ⟨_, hround.roundUp_eq, by omega⟩

end Block

end Rsgc.Storage
