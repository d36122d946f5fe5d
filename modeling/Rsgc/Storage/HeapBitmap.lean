import Rsgc.Lib.BitWalk
import Rsgc.Lib.Bytes
import Rsgc.Storage.Sweeper.MarkBits

namespace Rsgc.Storage

-- `HeapBitmap<16>`; its cells are the bytes of the heap memory from `bmp` on.
structure HeapBitmap where
  offset : Nat
  bmp : Nat
  size : Nat
deriving DecidableEq, Repr

namespace HeapBitmap

open BitWalk

variable {b : HeapBitmap} {m : Memory}

def ALIGN : Nat := 16

def bitmapSize (arenaSize : Nat) : Nat := (arenaSize + (8 * ALIGN - 1)) / (8 * ALIGN)

-- `mem` is what `malloc` gave for the cells.
def new (offset arenaSize mem : Nat) : HeapBitmap := ⟨offset, mem, bitmapSize arenaSize⟩

def cell (b : HeapBitmap) (m : Memory) (ix : Nat) : BitVec 8 := (m (b.bmp + ix)).toBitVec

def objectStartIndexBit (b : HeapBitmap) (addr : Nat) : Nat × Nat :=
  ((addr - b.offset) / ALIGN / 8, (addr - b.offset) / ALIGN &&& 7)

def objectOffset (index : Nat) : Nat := index * ALIGN * 8

def checkBit (b : HeapBitmap) (m : Memory) (addr : Nat) : Bool :=
  (b.cell m (b.objectStartIndexBit addr).1).getLsbD (b.objectStartIndexBit addr).2

-- The bits in units of 16 bytes from the offset.
def bits (b : HeapBitmap) (m : Memory) (i : Nat) : Bool := (b.cell m (i / 8)).getLsbD (i % 8)

-- The loop over the set bits of the cell `w` with the given index.
def visitCell (b : HeapBitmap) (index : Nat) (w : BitVec 8) : List Nat :=
  (BitWalk.walk 8 w).map fun shift => objectOffset index + b.offset + shift * ALIGN

-- The addresses that the closure of `visit_marked_range` is called with.
def visitMarkedRange (b : HeapBitmap) (m : Memory) (visitBegin visitEnd : Nat) : List Nat :=
  let start := b.objectStartIndexBit visitBegin
  let stop := b.objectStartIndexBit visitEnd
  let leftEdge := b.cell m start.1 &&& ~~~(1#8 <<< start.2 - 1#8)
  if start.1 < stop.1 then
    let rightEdge := if stop.2 = 0 then 0#8 else b.cell m stop.1
    b.visitCell start.1 leftEdge ++
      (List.range' (start.1 + 1) (stop.1 - (start.1 + 1))).flatMap
        (fun i => b.visitCell i (b.cell m i)) ++
      b.visitCell stop.1 (rightEdge &&& (1#8 <<< stop.2 - 1#8))
  else b.visitCell stop.1 (leftEdge &&& (1#8 <<< stop.2 - 1#8))

-- `is_marked_range` between two addresses.
def anyMarked (b : HeapBitmap) (m : Memory) (start stop : Nat) : Bool :=
  isMarkedRange (b.bits m) ((start - b.offset) / ALIGN) ((stop - b.offset) / ALIGN)

theorem objectStartIndexBit_eq (b : HeapBitmap) (addr : Nat) :
    b.objectStartIndexBit addr =
      ((addr - b.offset) / ALIGN / 8, (addr - b.offset) / ALIGN % 8) := by
  have hmask : (addr - b.offset) / ALIGN &&& 7 = (addr - b.offset) / ALIGN % 8 :=
    Nat.and_two_pow_sub_one_eq_mod _ 3
  unfold objectStartIndexBit
  rw [hmask]

theorem checkBit_eq (b : HeapBitmap) (m : Memory) (addr : Nat) :
    b.checkBit m addr = b.bits m ((addr - b.offset) / ALIGN) := by
  unfold checkBit bits
  rw [objectStartIndexBit_eq]

section Masks

theorem getLsbD_low (bit i : Nat) (hbit : bit < 8) :
    (1#8 <<< bit - 1#8).getLsbD i = decide (i < bit) := by
  have hall : ∀ bit < 8, ∀ i < 8, (1#8 <<< bit - 1#8).getLsbD i = decide (i < bit) := by decide
  by_cases hi : i < 8
  · exact hall bit hbit i hi
  · rw [BitVec.getLsbD_of_ge _ _ (by omega)]
    simp
    omega

-- The first cell without the bits before `bit`, the last without those from `bit` on.
theorem getLsbD_leftEdge (x : BitVec 8) {bit i : Nat} (hbit : bit < 8) :
    (x &&& ~~~(1#8 <<< bit - 1#8)).getLsbD i = true ↔ bit ≤ i ∧ x.getLsbD i = true := by
  rw [BitVec.getLsbD_and, BitVec.getLsbD_not, getLsbD_low bit i hbit]
  by_cases hi : i < 8
  · simp [hi, and_comm]
  · simp [hi, BitVec.getLsbD_of_ge x i (by omega)]

theorem getLsbD_rightEdge (x : BitVec 8) {bit i : Nat} (hbit : bit < 8) :
    (x &&& (1#8 <<< bit - 1#8)).getLsbD i = true ↔ i < bit ∧ x.getLsbD i = true := by
  rw [BitVec.getLsbD_and, getLsbD_low bit i hbit]
  simp [and_comm]

end Masks

section Visit

-- In units of 16 bytes the visit of a cell lists the bits of `w`, behind the
-- cells before it.
theorem visitCell_eq (b : HeapBitmap) (index : Nat) (w : BitVec 8) :
    b.visitCell index w = ((BitWalk.walk 8 w).map fun i => 8 * index + i).map
      fun i => b.offset + ALIGN * i := by
  unfold visitCell objectOffset ALIGN
  rw [List.map_map]
  apply List.map_congr_left
  intro shift _
  simp only [Function.comp_apply]
  omega

theorem walk_bits {index : Nat} {w : BitVec 8} {p : Nat → Prop}
    (hw : ∀ i, w.getLsbD i = true ↔ i < 8 ∧ p (8 * index + i)) :
    Enumerates ((BitWalk.walk 8 w).map fun i => 8 * index + i)
      fun j => 8 * index ≤ j ∧ j < 8 * index + 8 ∧ p j := by
  have hmono : StrictMono fun i => 8 * index + i := fun i j hlt => Nat.add_lt_add_left hlt _
  refine ((walk_enumerates w).map hmono).congr fun j => ?_
  constructor
  · rintro ⟨i, hi, rfl⟩
    obtain ⟨hlt, hp⟩ := (hw i).mp hi
    exact ⟨by omega, by omega, hp⟩
  · rintro ⟨hl, hr, hp⟩
    refine ⟨j - 8 * index, (hw _).mpr ⟨by omega, ?_⟩, by omega⟩
    rwa [Nat.add_sub_cancel' hl]

theorem getLsbD_cell (b : HeapBitmap) (m : Memory) (index i : Nat) :
    (b.cell m index).getLsbD i = true ↔ i < 8 ∧ b.bits m (8 * index + i) = true := by
  by_cases hi : i < 8
  · have hdiv : (8 * index + i) / 8 = index := by omega
    have hmod : (8 * index + i) % 8 = i := by omega
    simp [hi, bits, hdiv, hmod]
  · simp [hi, BitVec.getLsbD_of_ge _ i (by omega : 8 ≤ i)]

-- The units that `visit_marked_range` goes through.
def visitUnits (b : HeapBitmap) (m : Memory) (lo hi : Nat) : List Nat :=
  let leftEdge := b.cell m (lo / 8) &&& ~~~(1#8 <<< (lo % 8) - 1#8)
  if lo / 8 < hi / 8 then
    let rightEdge := if hi % 8 = 0 then 0#8 else b.cell m (hi / 8)
    ((BitWalk.walk 8 leftEdge).map fun i => 8 * (lo / 8) + i) ++
      (List.range' (lo / 8 + 1) (hi / 8 - (lo / 8 + 1))).flatMap
        (fun index => (BitWalk.walk 8 (b.cell m index)).map fun i => 8 * index + i) ++
      (BitWalk.walk 8 (rightEdge &&& (1#8 <<< (hi % 8) - 1#8))).map fun i => 8 * (hi / 8) + i
  else (BitWalk.walk 8 (leftEdge &&& (1#8 <<< (hi % 8) - 1#8))).map fun i => 8 * (hi / 8) + i

theorem visitMarkedRange_eq (b : HeapBitmap) (m : Memory) (visitBegin visitEnd : Nat) :
    b.visitMarkedRange m visitBegin visitEnd =
      (b.visitUnits m ((visitBegin - b.offset) / ALIGN) ((visitEnd - b.offset) / ALIGN)).map
        fun i => b.offset + ALIGN * i := by
  unfold visitMarkedRange visitUnits
  simp only [objectStartIndexBit_eq, visitCell_eq]
  split
  · simp only [List.map_append, List.map_flatMap]
  · rfl

theorem leftEdge_enumerates (b : HeapBitmap) (m : Memory) (lo : Nat) :
    Enumerates ((BitWalk.walk 8 (b.cell m (lo / 8) &&& ~~~(1#8 <<< (lo % 8) - 1#8))).map
        fun i => 8 * (lo / 8) + i)
      fun j => 8 * (lo / 8) ≤ j ∧ j < 8 * (lo / 8) + 8 ∧ lo ≤ j ∧ b.bits m j = true := by
  have hlo := Nat.mod_lt lo (show 0 < 8 by omega)
  refine walk_bits (p := fun j => lo ≤ j ∧ b.bits m j = true) fun i => ?_
  rw [getLsbD_leftEdge _ hlo, getLsbD_cell]
  constructor
  · rintro ⟨hge, hlt, hbit⟩
    exact ⟨hlt, by omega, hbit⟩
  · rintro ⟨hlt, hge, hbit⟩
    exact ⟨by omega, hlt, hbit⟩

-- At a cell boundary the last cell is not read.
theorem rightEdge_enumerates (b : HeapBitmap) (m : Memory) (hi : Nat) :
    Enumerates ((BitWalk.walk 8 ((if hi % 8 = 0 then 0#8 else b.cell m (hi / 8)) &&&
        (1#8 <<< (hi % 8) - 1#8))).map fun i => 8 * (hi / 8) + i)
      fun j => 8 * (hi / 8) ≤ j ∧ j < 8 * (hi / 8) + 8 ∧ j < hi ∧ b.bits m j = true := by
  have hhi := Nat.mod_lt hi (show 0 < 8 by omega)
  refine walk_bits (p := fun j => j < hi ∧ b.bits m j = true) fun i => ?_
  rw [getLsbD_rightEdge _ hhi]
  by_cases hedge : hi % 8 = 0
  · rw [if_pos hedge]
    constructor
    · rintro ⟨hlt, _⟩
      omega
    · rintro ⟨_, hlt, _⟩
      omega
  · rw [if_neg hedge, getLsbD_cell]
    constructor
    · rintro ⟨hlt, hi8, hbit⟩
      exact ⟨hi8, by omega, hbit⟩
    · rintro ⟨hi8, hlt, hbit⟩
      exact ⟨by omega, hi8, hbit⟩

theorem visitUnits_enumerates (b : HeapBitmap) (m : Memory) {lo hi : Nat} (hle : lo ≤ hi) :
    Enumerates (b.visitUnits m lo hi) fun j => lo ≤ j ∧ j < hi ∧ b.bits m j = true := by
  unfold visitUnits
  simp only
  by_cases hcells : lo / 8 < hi / 8
  · rw [if_pos hcells]
    have hmiddle := Enumerates.flatMap_range (lo / 8 + 1) (hi / 8 - (lo / 8 + 1))
      (r := fun index j => 8 * index ≤ j ∧ j < 8 * index + 8 ∧ b.bits m j = true)
      (fun index _ _ => walk_bits (getLsbD_cell b m index)) fun i j a c hij ha hc => by omega
    have hhead := (leftEdge_enumerates b m lo).append hmiddle fun a c ha hc => by
      obtain ⟨index, hl, _, hc, _⟩ := hc
      omega
    refine (hhead.append (rightEdge_enumerates b m hi) fun a c ha hc => ?_).congr fun j => ?_
    · rcases ha with ha | ⟨index, _, hr, _, ha, _⟩ <;> omega
    · constructor
      · rintro ((⟨_, hlt, hge, hbit⟩ | ⟨index, hl, hr, hlow, hhigh, hbit⟩) | ⟨hlow, _, hlt, hbit⟩)
        · exact ⟨hge, by omega, hbit⟩
        · exact ⟨by omega, by omega, hbit⟩
        · exact ⟨by omega, hlt, hbit⟩
      · rintro ⟨hge, hlt, hbit⟩
        rcases Nat.lt_trichotomy (j / 8) (hi / 8) with hbefore | hlast | hafter
        · by_cases hfirst : j / 8 = lo / 8
          · exact Or.inl (Or.inl ⟨by omega, by omega, hge, hbit⟩)
          · exact Or.inl (Or.inr ⟨j / 8, by omega, by omega, by omega, by omega, hbit⟩)
        · exact Or.inr ⟨by omega, by omega, hlt, hbit⟩
        · omega
  · rw [if_neg hcells]
    -- both ends in one cell
    have hsame : lo / 8 = hi / 8 := by omega
    have hlo := Nat.mod_lt lo (show 0 < 8 by omega)
    have hhi := Nat.mod_lt hi (show 0 < 8 by omega)
    have hboth := walk_bits
      (w := b.cell m (lo / 8) &&& ~~~(1#8 <<< (lo % 8) - 1#8) &&& (1#8 <<< (hi % 8) - 1#8))
      (p := fun j => lo ≤ j ∧ j < hi ∧ b.bits m j = true) fun i => by
        rw [getLsbD_rightEdge _ hhi, getLsbD_leftEdge _ hlo, getLsbD_cell, hsame]
        constructor
        · rintro ⟨hlt, hge, hi8, hbit⟩
          exact ⟨hi8, by omega, by omega, hbit⟩
        · rintro ⟨hi8, hge, hlt, hbit⟩
          exact ⟨by omega, by omega, hi8, hbit⟩
    refine hboth.congr fun j => ⟨fun h => h.2.2, fun h => ⟨?_, ?_, h⟩⟩ <;> omega

section Addresses

variable {visitBegin visitEnd : Nat}

-- The units of the addresses of a range.
theorem address_unit (hoffset : b.offset ≤ visitBegin) (halign : ALIGN ∣ b.offset)
    (hbegin : ALIGN ∣ visitBegin) (hend : ALIGN ∣ visitEnd) (a : Nat) :
    (visitBegin ≤ a ∧ a < visitEnd ∧ ALIGN ∣ a ∧ b.checkBit m a = true) ↔
      ∃ i, ((visitBegin - b.offset) / ALIGN ≤ i ∧ i < (visitEnd - b.offset) / ALIGN ∧
        b.bits m i = true) ∧ b.offset + ALIGN * i = a := by
  unfold ALIGN at *
  have hunits : ∀ i, (visitBegin - b.offset) / 16 ≤ i ∧ i < (visitEnd - b.offset) / 16 ↔
      visitBegin ≤ b.offset + 16 * i ∧ b.offset + 16 * i < visitEnd := by
    intro i
    omega
  have hcheck : ∀ i, b.checkBit m (b.offset + 16 * i) = b.bits m i := by
    intro i
    rw [checkBit_eq]
    congr 1
    unfold ALIGN
    omega
  constructor
  · rintro ⟨hl, hr, hdvd, hbit⟩
    obtain ⟨i, rfl⟩ : ∃ i, a = b.offset + 16 * i := ⟨(a - b.offset) / 16, by omega⟩
    obtain ⟨hlow, hhigh⟩ := (hunits i).mpr ⟨hl, hr⟩
    exact ⟨i, ⟨hlow, hhigh, by rwa [hcheck] at hbit⟩, rfl⟩
  · rintro ⟨i, ⟨hl, hr, hbit⟩, rfl⟩
    obtain ⟨hlow, hhigh⟩ := (hunits i).mp ⟨hl, hr⟩
    exact ⟨hlow, hhigh, by omega, by rw [hcheck]; exact hbit⟩

theorem visitMarkedRange_enumerates (hoffset : b.offset ≤ visitBegin) (halign : ALIGN ∣ b.offset)
    (hbegin : ALIGN ∣ visitBegin) (hend : ALIGN ∣ visitEnd) (hle : visitBegin ≤ visitEnd) :
    Enumerates (b.visitMarkedRange m visitBegin visitEnd)
      fun a => visitBegin ≤ a ∧ a < visitEnd ∧ ALIGN ∣ a ∧ b.checkBit m a = true := by
  have hmono : StrictMono fun i => b.offset + ALIGN * i := fun i j hlt => by
    unfold ALIGN
    simp only
    omega
  rw [visitMarkedRange_eq]
  refine ((visitUnits_enumerates b m (Nat.div_le_div_right (by omega))).map hmono).congr
    fun a => ?_
  exact (address_unit hoffset halign hbegin hend a).symm

end Addresses

-- Both functions see the marked addresses of the range and no others.
theorem visit_marked_range_exact {visitBegin visitEnd : Nat} (hoffset : b.offset ≤ visitBegin)
    (halign : ALIGN ∣ b.offset) (hbegin : ALIGN ∣ visitBegin) (hend : ALIGN ∣ visitEnd)
    (hle : visitBegin ≤ visitEnd) :
    Enumerates (b.visitMarkedRange m visitBegin visitEnd)
        (fun a => visitBegin ≤ a ∧ a < visitEnd ∧ ALIGN ∣ a ∧ b.checkBit m a = true) ∧
      (b.anyMarked m visitBegin visitEnd = true ↔
        ∃ a, visitBegin ≤ a ∧ a < visitEnd ∧ ALIGN ∣ a ∧ b.checkBit m a = true) := by
  refine ⟨visitMarkedRange_enumerates hoffset halign hbegin hend hle, ?_⟩
  have haddress := address_unit (m := m) hoffset halign hbegin hend
  unfold anyMarked
  rw [isMarkedRange_iff (Nat.div_le_div_right (by omega))]
  constructor
  · rintro ⟨i, hl, hr, hbit⟩
    exact ⟨_, (haddress _).mpr ⟨i, ⟨hl, hr, hbit⟩, rfl⟩⟩
  · rintro ⟨a, ha⟩
    obtain ⟨i, ⟨hl, hr, hbit⟩, _⟩ := (haddress a).mp ha
    exact ⟨i, hl, hr, hbit⟩

-- Both ends lie inside a cell.
theorem visit_marked_range_exact_inner :
    Enumerates (visitMarkedRange ⟨4096, 0, 4⟩ (fun _ => 0x81) 4112 4336)
        (fun a => 4112 ≤ a ∧ a < 4336 ∧ ALIGN ∣ a ∧
          checkBit ⟨4096, 0, 4⟩ (fun _ => 0x81) a = true) ∧
      (anyMarked ⟨4096, 0, 4⟩ (fun _ => 0x81) 4112 4336 = true ↔
        ∃ a, 4112 ≤ a ∧ a < 4336 ∧ ALIGN ∣ a ∧
          checkBit ⟨4096, 0, 4⟩ (fun _ => 0x81) a = true) :=
  visit_marked_range_exact (by decide) (by decide) (by decide) (by decide) (by decide)

example : visitMarkedRange ⟨4096, 0, 4⟩ (fun _ => 0x81) 4112 4336 = [4208, 4224] := by decide

end Visit

end HeapBitmap

end Rsgc.Storage
