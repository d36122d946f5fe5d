import Rsgc.Lib.BitScan
import Rsgc.Storage.Store.Disjoint

namespace Rsgc.Storage

-- `u8::leading_zeros`
def leadingZeros (byte : Nat) : Nat := if byte = 0 then 8 else 7 - byte.log2

namespace HeapRegion

variable {r : HeapRegion} {held : List Space}

-- The bitmap of the region, with a bit for 16 bytes.
def startBit (r : HeapRegion) (number : Nat) : Bool := r.objectStartBitmap (r.bottom + 16 * number)

-- `HeapBitmap::find_object_start`, with eight bits in a cell
def findObjectStart (r : HeapRegion) (addr : Nat) : Option Nat :=
  let number := (addr - r.bottom) / 16
  let cells := BitScan.cell r.startBit 8
  let found := BitScan.scanBack cells (number / 8)
    (cells (number / 8) &&& (2 ^ (number % 8 + 1) - 1))
  if found.2 = 0 then none
  else some ((found.1 * 8 + 7 - leadingZeros found.2) * 16 + r.bottom)

-- The scan ends at the last start bit that is not behind the address.
theorem findObjectStart_cases (r : HeapRegion) (addr : Nat) :
    (r.findObjectStart addr = none ∧ ∀ k, k ≤ (addr - r.bottom) / 16 → r.startBit k = false) ∨
      ∃ k, r.findObjectStart addr = some (r.bottom + 16 * k) ∧
        BitScan.IsLast r.startBit ((addr - r.bottom) / 16) k := by
  unfold findObjectStart
  simp only
  rcases BitScan.scanBack_masked r.startBit (w := 8) (by decide) ((addr - r.bottom) / 16) rfl with
    ⟨hzero, hclear⟩ | ⟨hne, hlt, hlast⟩
  · exact Or.inl ⟨if_pos hzero, hclear⟩
  · refine Or.inr ⟨_, ?_, hlast⟩
    rw [if_neg hne, leadingZeros, if_neg hne]
    congr 1
    omega

-- Every address of a block leads to its start when no other block of the region
-- has a start bit in between.
theorem findObjectStart_eq {addr b stop : Nat} (hlow : r.bottom ≤ b) (hdvd : 16 ∣ b - r.bottom)
    (hb : b ≤ addr) (hstop : addr < stop) (hset : r.objectStartBitmap b = true)
    (hclear : ∀ a, b < a → a < stop → r.objectStartBitmap a = false) :
    r.findObjectStart addr = some b := by
  obtain ⟨k, hk⟩ := hdvd
  have hbit : r.bottom + 16 * k = b := by omega
  have hlast : BitScan.IsLast r.startBit ((addr - r.bottom) / 16) k := by
    refine ⟨?_, by omega, fun m hm hmn => ?_⟩
    · unfold startBit
      rw [hbit]
      exact hset
    · exact hclear _ (by omega) (by omega)
  rcases r.findObjectStart_cases addr with ⟨_, hnone⟩ | ⟨k', hfound, hlast'⟩
  · have hfalse := hnone k hlast.le
    rw [hlast.set] at hfalse
    cases hfalse
  · rw [hfound, hlast'.unique hlast, hbit]

theorem findObjectStart_some {addr b : Nat} (hlow : r.bottom ≤ addr)
    (hfound : r.findObjectStart addr = some b) :
    r.objectStartBitmap b = true ∧ r.bottom ≤ b ∧ b ≤ addr := by
  rcases r.findObjectStart_cases addr with ⟨hnone, _⟩ | ⟨k, hsome, hlast⟩
  · rw [hnone] at hfound
    cases hfound
  · rw [hsome] at hfound
    obtain rfl := Option.some.inj hfound
    have hle := hlast.le
    exact ⟨hlast.set, by omega, by omega⟩

end HeapRegion

namespace Heap

variable {c : HeapConfig} {h h' : Heap} {objs tails : Nat → List Space}

-- `get_humongous_start` on the region at `index`. The source counts down to the
-- first region and past it.
def getHumongousStart (h : Heap) : Nat → Except Panic Nat
  | 0 => if (h.regions 0).isHumongousStart then pure 0 else throw .regionIndexOutOfBounds
  | index + 1 =>
      if (h.regions (index + 1)).isHumongousStart then pure (index + 1)
      else h.getHumongousStart index

def objectStart (h : Heap) (addr : Nat) : Except Panic (Option Nat) :=
  if h.memStart ≤ addr ∧ addr < h.memStart + h.opts.maxHeapSize then
    let index := h.regionIndex addr
    let r := h.regions index
    if h.numRegions ≤ index then pure none
    else if r.isHumongousStart then pure (some r.bottom)
    else if r.isHumongousCont then do
      let start ← h.getHumongousStart index
      pure (some (h.regions start).bottom)
    else pure (r.findObjectStart addr)
  else pure none

theorem getHumongousStart_eq {i j : Nat} (hij : i ≤ j) (hstart : (h.regions i).typ = .humongousStart)
    (hconts : ∀ k, i < k → k ≤ j → (h.regions k).typ = .humongousCont) :
    h.getHumongousStart j = .ok i := by
  have hi : (h.regions i).isHumongousStart = true := by simp [HeapRegion.isHumongousStart, hstart]
  induction j with
  | zero =>
      obtain rfl : i = 0 := by omega
      unfold getHumongousStart
      rw [if_pos hi, Except.pure_eq_ok]
  | succ j ih =>
      unfold getHumongousStart
      by_cases heq : i = j + 1
      · subst heq
        rw [if_pos hi, Except.pure_eq_ok]
      · rw [if_neg (by simp [HeapRegion.isHumongousStart, hconts (j + 1) (by omega) (Nat.le_refl _)])]
        exact ih (by omega) fun k hik hk => hconts k hik (by omega)

-- The lookup at an address of region `i`.
theorem Placed.objectStart_eq (hp : h.Placed c) {i addr : Nat} (hi : i < h.numRegions)
    (hlow : (h.regions i).bottom ≤ addr) (hhigh : addr < (h.regions i).limit) :
    h.objectStart addr = if (h.regions i).isHumongousStart then pure (some (h.regions i).bottom)
      else if (h.regions i).isHumongousCont then do
        let start ← h.getHumongousStart i
        pure (some (h.regions start).bottom)
      else pure ((h.regions i).findObjectStart addr) := by
  have hrange := hp.contains hi hlow hhigh
  unfold objectStart
  rw [if_pos hrange]
  simp only [hp.regionIndex_eq hlow hhigh]
  rw [if_neg (Nat.not_le.mpr hi)]

-- What is recorded about the blocks that are objects: the start bits that are
-- set are theirs, and a region behind the first one of a run belongs to a
-- humongous object that reaches into it.
structure Recorded (objs : Nat → List Space) (h : Heap) : Prop where
  bits : ∀ i, i < h.numRegions → ∀ a, (h.regions i).objectStartBitmap a = true →
    ∃ b ∈ objs i, b.addr = a
  owned : ∀ j, j < h.numRegions → (h.regions j).typ = .humongousCont →
    ∃ i, i < j ∧ (h.regions i).typ = .humongousStart ∧
      ∃ b ∈ objs i, j < i + h.opts.requiredRegions b.size

-- An object start: its start bit is set, or a humongous object starts there.
def StartsAt (h : Heap) (addr : Nat) : Prop :=
  (h.regions (h.regionIndex addr)).objectStartBitmap addr = true ∨
    ((h.regions (h.regionIndex addr)).typ = .humongousStart ∧
      (h.regions (h.regionIndex addr)).bottom = addr)

theorem Placed.regionIndex_bounds (hp : h.Placed c) (addr : Nat) (hlow : c.memStart ≤ addr) :
    (h.regions (h.regionIndex addr)).bottom ≤ addr ∧
      addr < (h.regions (h.regionIndex addr)).limit := by
  have hindex : h.regionIndex addr = (addr - c.memStart) / c.opts.regionSizeBytes := by
    unfold regionIndex
    rw [hp.memStart_eq, hp.opts_eq, Nat.shiftRight_eq_div_pow, ← c.geometry.size_eq]
  have hle := Nat.mul_div_le (addr - c.memStart) c.opts.regionSizeBytes
  have hlt := Nat.lt_mul_div_succ (addr - c.memStart) c.geometry.size_pos
  rw [Nat.mul_succ] at hlt
  rw [hp.limit_eq, hp.bottom_eq, hindex]
  omega

-- An address in a row of regions lies in one of them.
theorem Placed.regionIndex_between (hp : h.Placed c) (i num addr : Nat)
    (hlow : (h.regions i).bottom ≤ addr)
    (hhigh : addr < (h.regions i).bottom + c.opts.regionSizeBytes * num) :
    i ≤ h.regionIndex addr ∧ h.regionIndex addr < i + num := by
  rw [hp.bottom_eq] at hlow hhigh
  obtain ⟨hle, hlt⟩ := hp.regionIndex_bounds addr (by omega)
  rw [hp.bottom_eq] at hle
  rw [hp.limit_eq, hp.bottom_eq] at hlt
  constructor
  · by_contra hbefore
    have hmul := Nat.mul_le_mul_left c.opts.regionSizeBytes
      (show h.regionIndex addr + 1 ≤ i by omega)
    rw [Nat.mul_succ] at hmul
    omega
  · by_contra hbehind
    have hmul := Nat.mul_le_mul_left c.opts.regionSizeBytes (Nat.le_of_not_lt hbehind)
    rw [Nat.mul_add] at hmul
    omega

section Lookup

variable (hl : h.Laid fun j => objs j ++ tails j) (hp : h.Placed c) (hr : h.Recorded objs)
  (hobjs : ∀ j, ∀ b ∈ objs j, b.kind = .object) (htails : ∀ j, ∀ b ∈ tails j, b.kind = .tail)

include hl hp hr in
-- In a region of its own an object is found by its start bit.
theorem Laid.objectStart_regular {i addr : Nat} {b : Space} (hi : i < h.numRegions) (hb : b ∈ objs i)
    (hkind : b.kind = .object) (htyp : (h.regions i).typ = .regular) (hlow : b.addr ≤ addr)
    (hhigh : addr < b.stop) : h.objectStart addr = .ok (some b.addr) := by
  have hfilled := (hl.region i hi).filled htyp
  have hmem : ∀ b' ∈ objs i, b' ∈ objs i ++ tails i ++ (h.regions i).freeBlocks :=
    fun b' hb' => List.mem_append_left _ (List.mem_append_left _ hb')
  obtain ⟨hbottom, hlimit⟩ := hfilled.covers.within (hmem b hb)
  obtain ⟨_, hdescribed⟩ := hfilled.described b (hmem b hb)
  rw [hkind] at hdescribed
  have hdvd := hfilled.covers.dvd_addr (fun b' hb' => (hfilled.described b' hb').1) (hmem b hb)
  rw [hp.objectStart_eq hi (by omega) (by omega), HeapRegion.isHumongousStart,
    HeapRegion.isHumongousCont, htyp]
  have hfound : (h.regions i).findObjectStart addr = some b.addr := by
    refine HeapRegion.findObjectStart_eq hbottom hdvd hlow hhigh hdescribed.2 fun a ha hstop => ?_
    by_contra hbit
    obtain ⟨b', hb', rfl⟩ := hr.bits i hi a (by simpa using hbit)
    have hne : b ≠ b' := by
      rintro rfl
      omega
    have hapart := hfilled.covers.apart (hmem b hb) (hmem b' hb') hne
    have hpos := hfilled.covers.size_pos (hmem b' hb')
    unfold Block.Apart Block.stop at hapart
    unfold Block.stop at hstop
    omega
  rw [hfound]
  rfl

include hl hp in
-- The regions of a humongous object lead back to the first one.
theorem Laid.objectStart_run {i addr : Nat} {b : Space} (hi : i < h.numRegions)
    (hb : b ∈ objs i) (htyp : (h.regions i).typ = .humongousStart)
    (hlow : (h.regions i).bottom ≤ addr)
    (hhigh : h.regionIndex addr < i + h.opts.requiredRegions b.size) :
    h.objectStart addr = .ok (some (h.regions i).bottom) := by
  have hbottom := hp.bottom_eq i
  obtain ⟨hle, hconts⟩ := hl.run i hi htyp b (List.mem_append_left _ hb)
  obtain ⟨hin, hout⟩ := hp.regionIndex_bounds addr (by omega)
  have hij : i ≤ h.regionIndex addr := by
    by_contra hbefore
    have hmul := Nat.mul_le_mul_left c.opts.regionSizeBytes
      (show h.regionIndex addr + 1 ≤ i by omega)
    rw [Nat.mul_succ] at hmul
    rw [hp.limit_eq, hp.bottom_eq] at hout
    omega
  rw [hp.objectStart_eq (by omega) hin hout]
  rcases Nat.eq_or_lt_of_le hij with heq | hlt
  · rw [← heq, HeapRegion.isHumongousStart, htyp]
    rfl
  · have hcont := hconts _ hlt hhigh
    have hstart := getHumongousStart_eq hij htyp fun k hik hk => hconts k hik (by omega)
    rw [HeapRegion.isHumongousStart, HeapRegion.isHumongousCont, hcont, hstart]
    rfl

include hl hp hr hobjs in
theorem Laid.objectStart_inside {i addr : Nat} {b : Space} (hi : i < h.numRegions) (hb : b ∈ objs i)
    (hlow : b.addr ≤ addr) (hhigh : addr < b.stop) : h.objectStart addr = .ok (some b.addr) := by
  obtain ⟨_, _, ⟨htyp, _⟩ | ⟨htyp, _, haddr⟩⟩ := hl.mem_region hp hi (List.mem_append_left _ hb)
  · exact Laid.objectStart_regular hl hp hr hi hb (hobjs i b hb) htyp hlow hhigh
  · rw [haddr]
    have hsize := c.geometry.le_requiredRegions b.size
    unfold Block.stop at hhigh
    obtain ⟨_, hbetween⟩ := hp.regionIndex_between i (c.opts.requiredRegions b.size) addr
      (by omega) (by omega)
    rw [← hp.opts_eq] at hbetween
    exact Laid.objectStart_run hl hp hi hb htyp (by omega) hbetween

include hl hp hr htails in
-- What the lookup finds is an object, also at addresses that belong to none.
theorem Laid.objectStart_cases (addr : Nat) :
    h.objectStart addr = .ok none ∨
      ∃ i, i < h.numRegions ∧ ∃ b ∈ objs i,
        h.objectStart addr = .ok (some b.addr) ∧ h.StartsAt b.addr := by
  by_cases hrange : h.memStart ≤ addr ∧ addr < h.memStart + h.opts.maxHeapSize
  · by_cases hi : h.regionIndex addr < h.numRegions
    · obtain ⟨hlow, hhigh⟩ := hp.regionIndex_bounds addr (hp.memStart_eq ▸ hrange.1)
      -- a humongous object is found at the start of its run
      have hrun : ∀ i, i < h.numRegions → (h.regions i).typ = .humongousStart → ∀ b ∈ objs i,
          h.regionIndex addr < i + h.opts.requiredRegions b.size → (h.regions i).bottom ≤ addr →
          ∃ i, i < h.numRegions ∧ ∃ b ∈ objs i,
            h.objectStart addr = .ok (some b.addr) ∧ h.StartsAt b.addr := by
        intro i hi htyp b hb hreach hbottom
        obtain ⟨_, _, ⟨hregular, _⟩ | ⟨_, _, haddr⟩⟩ :=
          hl.mem_region hp hi (List.mem_append_left _ hb)
        · rw [htyp] at hregular
          cases hregular
        · refine ⟨i, hi, b, hb, ?_, Or.inr ?_⟩
          · rw [haddr]
            exact Laid.objectStart_run hl hp hi hb htyp hbottom hreach
          · have hindex : h.regionIndex b.addr = i := by
              rw [haddr]
              exact hp.regionIndex_eq (Nat.le_refl _) (hp.lt_limit i)
            rw [hindex]
            exact ⟨htyp, haddr.symm⟩
      by_cases hstart : (h.regions (h.regionIndex addr)).typ = .humongousStart
      · have hlayout := hl.region _ hi
        unfold HeapRegion.Layout at hlayout
        rw [hstart] at hlayout
        obtain ⟨_, _, size, hheld, hpos, _⟩ := hlayout
        have hmem : (⟨(h.regions (h.regionIndex addr)).bottom, size, .object⟩ : Space) ∈
            objs (h.regionIndex addr) := by
          have hin : (⟨(h.regions (h.regionIndex addr)).bottom, size, .object⟩ : Space) ∈
              objs (h.regionIndex addr) ++ tails (h.regionIndex addr) := by simp [hheld]
          rcases List.mem_append.mp hin with hobj | htail
          · exact hobj
          · have hkind := htails _ _ htail
            cases hkind
        refine Or.inr (hrun _ hi hstart _ hmem ?_ hlow)
        have hnum := c.geometry.requiredRegions_pos hpos
        rw [← hp.opts_eq] at hnum
        simp only
        omega
      · by_cases hcont : (h.regions (h.regionIndex addr)).typ = .humongousCont
        · obtain ⟨i, hij, htyp, b, hb, hreach⟩ := hr.owned _ hi hcont
          refine Or.inr (hrun i (by omega) htyp b hb hreach ?_)
          have hmul := Nat.mul_le_mul_left c.opts.regionSizeBytes (Nat.le_of_lt hij)
          rw [hp.bottom_eq] at hlow ⊢
          omega
        · rw [hp.objectStart_eq hi hlow hhigh, if_neg (by simp [HeapRegion.isHumongousStart, hstart]),
            if_neg (by simp [HeapRegion.isHumongousCont, hcont])]
          cases hfound : (h.regions (h.regionIndex addr)).findObjectStart addr with
          | none => exact Or.inl rfl
          | some a =>
              obtain ⟨hbit, hbottom, hle⟩ := HeapRegion.findObjectStart_some hlow hfound
              obtain ⟨b, hb, rfl⟩ := hr.bits _ hi a hbit
              have hindex : h.regionIndex b.addr = h.regionIndex addr :=
                hp.regionIndex_eq hbottom (by omega)
              refine Or.inr ⟨_, hi, b, hb, rfl, Or.inl ?_⟩
              rw [hindex]
              exact hbit
    · unfold objectStart
      rw [if_pos hrange]
      simp only
      rw [if_pos (Nat.le_of_not_lt hi)]
      exact Or.inl rfl
  · unfold objectStart
    rw [if_neg hrange]
    exact Or.inl rfl

end Lookup

end Heap

end Rsgc.Storage
