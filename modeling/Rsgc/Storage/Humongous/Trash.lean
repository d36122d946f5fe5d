import Rsgc.Storage.Humongous
import Rsgc.System.Header.ReadBack

namespace Rsgc.Storage

open Rsgc.System (Allocation HeapBlock)

-- Where `trash_humongous_region_at` stops; the arithmetic is checked.
inductive TrashFault
  | arithmeticOverflow
  | regionIndexOutOfBounds
deriving DecidableEq, Repr

namespace Heap

variable {types : Nat → Allocation} {m : Memory} {h g : Heap}

-- The index is lowered once more after the last region of the object.
def trashLoop (h : Heap) : Nat → Nat → Except TrashFault Heap
  | 0, _ => pure h
  | rounds + 1, index => do
      ensure (index < h.numRegions) TrashFault.regionIndexOutOfBounds
      ensure (index ≠ 0) TrashFault.arithmeticOverflow
      (h.setRegion index (h.regions index).makeTrash).trashLoop rounds (index - 1)

-- `trash_humongous_region_at` on the bytes of the heap
def trashHumongousRegion (types : Nat → Allocation) (m : Memory) (h : Heap) (start : Nat) :
    Except TrashFault Heap := do
  let sz := System.HeapObjectHeader.heapSize types m (h.regions start).bottom
  let requiredRegions := h.opts.requiredRegions sz
  ensure ((h.regions start).index + requiredRegions ≠ 0) TrashFault.arithmeticOverflow
  h.trashLoop requiredRegions ((h.regions start).index + requiredRegions - 1)

-- The regions `beg` to `beg + num - 1` turned into trash.
def trashed (h : Heap) (beg num : Nat) : Heap :=
  { h with regions := fun j =>
      if beg ≤ j ∧ j < beg + num then (h.regions j).makeTrash else h.regions j }

theorem trashed_zero (h : Heap) (beg : Nat) : h.trashed beg 0 = h := by
  have hregions : (fun j => if beg ≤ j ∧ j < beg + 0 then (h.regions j).makeTrash
      else h.regions j) = h.regions := by
    funext j
    rw [if_neg (by omega)]
  unfold trashed
  rw [hregions]

theorem trashed_last (h : Heap) (beg num : Nat) :
    (h.setRegion (beg + num) (h.regions (beg + num)).makeTrash).trashed beg num =
      h.trashed beg (num + 1) := by
  have hregions : (fun j => if beg ≤ j ∧ j < beg + num then
        ((h.setRegion (beg + num) (h.regions (beg + num)).makeTrash).regions j).makeTrash
      else (h.setRegion (beg + num) (h.regions (beg + num)).makeTrash).regions j) =
      fun j => if beg ≤ j ∧ j < beg + (num + 1) then (h.regions j).makeTrash else h.regions j := by
    funext j
    rw [setRegion_regions, Function.update_apply]
    by_cases hj : j = beg + num
    · rw [if_pos hj, if_neg (by omega), if_pos (by omega), hj]
    · rw [if_neg hj]
      by_cases hin : beg ≤ j ∧ j < beg + num
      · rw [if_pos hin, if_pos (by omega)]
      · rw [if_neg hin, if_neg (by omega)]
  unfold trashed
  rw [hregions]
  rfl

-- Away from region 0 the loop reaches the first region of the object and stops.
theorem trashLoop_eq {beg rounds : Nat} (hpos : 0 < beg) (hlt : beg + rounds ≤ h.numRegions) :
    h.trashLoop rounds (beg + rounds - 1) = .ok (h.trashed beg rounds) := by
  induction rounds generalizing h with
  | zero =>
      rw [trashed_zero]
      rfl
  | succ rounds ih =>
      have hindex : beg + (rounds + 1) - 1 = beg + rounds := by omega
      have hin : beg + rounds < h.numRegions := by omega
      have hne : beg + rounds ≠ 0 := by omega
      have hrest := ih (h := h.setRegion (beg + rounds) (h.regions (beg + rounds)).makeTrash)
        (by unfold numRegions at *; rw [setRegion_opts]; omega)
      rw [trashed_last] at hrest
      rw [hindex]
      unfold trashLoop
      simp only [ensure, hin, hne, ne_eq, not_false_eq_true, if_true, Except.ok_bind]
      exact hrest

-- Where the rounds reach region 0, the index is lowered below zero.
theorem trashLoop_underflow {rounds index : Nat} (hlt : index < h.numRegions)
    (hshort : index < rounds) : h.trashLoop rounds index = .error .arithmeticOverflow := by
  induction rounds generalizing h index with
  | zero => omega
  | succ rounds ih =>
      unfold trashLoop
      by_cases hzero : index = 0
      · subst hzero
        simp only [ensure, hlt, ne_eq, not_true_eq_false, if_true, if_false, Except.ok_bind,
          Except.error_bind]
      · have hrest := @ih (h.setRegion index (h.regions index).makeTrash) (index - 1)
          (by unfold numRegions at *; rw [setRegion_opts]; omega) (by omega)
        simp only [ensure, hlt, hzero, ne_eq, not_false_eq_true, if_true, Except.ok_bind]
        exact hrest

-- A later heap and memory in which the object of `size` bytes still lies at the
-- bottom of region `beg`, with the header its allocation gave it.
structure Keeps (types : Nat → Allocation) (m : Memory) (h g : Heap) (beg size : Nat) : Prop where
  opts_eq : g.opts = h.opts
  index_eq : (g.regions beg).index = beg
  bottom_eq : (g.regions beg).bottom = (h.regions beg).bottom
  header : ∃ vt, HeapBlock.Described types m ⟨(h.regions beg).bottom, size, some vt⟩

theorem Keeps.trashHumongousRegion_eq {beg size : Nat} (hk : Keeps types m h g beg size)
    (hpos : 0 < h.opts.requiredRegions size) :
    g.trashHumongousRegion types m beg = g.trashLoop (h.opts.requiredRegions size)
      (beg + h.opts.requiredRegions size - 1) := by
  obtain ⟨vt, hheader⟩ := hk.header
  have hsize : System.HeapObjectHeader.heapSize types m (g.regions beg).bottom = size := by
    rw [hk.bottom_eq]
    exact hheader.heapSize
  have hne : beg + h.opts.requiredRegions size ≠ 0 := by omega
  unfold trashHumongousRegion
  simp only [hsize, hk.index_eq, hk.opts_eq, ensure, hne, ne_eq, not_false_eq_true, if_true,
    Except.ok_bind]

-- What `allocate_contiguous` placed is turned into trash exactly, unless it was
-- placed in the first region of the heap.
theorem trashes_exactly_iff {c : HeapConfig} {req : AllocRequest} {beg : Nat}
    (hs : h.Searchable) (hp : h.Placed c) (hbig : h.opts.humongousThresholdBytes < req.size)
    (hmem : (h.allocateContiguous req).1.mem = some (h.regions beg).bottom)
    (hk : Keeps types m h g beg req.size) :
    g.trashHumongousRegion types m beg =
        .ok (g.trashed beg (h.opts.requiredRegions req.size)) ↔ beg ≠ 0 := by
  have hpos : 0 < h.opts.requiredRegions req.size := hs.geometry.requiredRegions_pos (by omega)
  rcases hs.allocateContiguous_cases req (by omega) with
    ⟨_, heq⟩ | ⟨found, hrun, _, hfound, _⟩
  · rw [heq] at hmem
    cases hmem
  · obtain rfl : found = beg := by
      rw [hmem, Option.some_inj, hp.bottom_eq, hp.bottom_eq] at hfound
      have hmul := Nat.add_left_cancel hfound
      exact (Nat.eq_of_mul_eq_mul_left c.geometry.size_pos hmul).symm
    have hlast := (hrun (found + h.opts.requiredRegions req.size - 1) (by omega) (by omega)).1
    have hn : g.numRegions = h.numRegions := by
      unfold numRegions
      rw [hk.opts_eq]
    rw [hk.trashHumongousRegion_eq hpos]
    constructor
    · rintro hok rfl
      rw [trashLoop_underflow (by omega) (by omega)] at hok
      cases hok
    · intro hne
      exact trashLoop_eq (by omega) (by omega)

-- Where the arithmetic wraps the last step of the index has no effect.
theorem trashHumongousRegionAt_trashed {start : Nat} (hok : h.trashHumongousRegionAt start = .ok g) :
    g = h.trashed start
      (h.opts.requiredRegions ((h.regions start).words (h.regions start).bottom).size) :=
  (trashHumongousRegionAt_eq hok).2

section Pages

-- An object that takes a region of 4096 bytes.
def pageType : Allocation := ⟨4088, false, 0, 0, true⟩

-- The memory behind the allocation of such an object.
def pageAt (addr : Nat) : Memory := System.allocate (fun _ => pageType) (fun _ => 0) addr 1 fun _ => 0

theorem pageAt_described (addr : Nat) :
    HeapBlock.Described (fun _ => pageType) (pageAt addr) ⟨addr, 4096, some 1⟩ := by
  have hsize : pageType.fixedSize = 4096 := by decide
  have hdescribed := @System.allocate_described (fun _ => pageType) 1 (fun _ => 0)
    addr (fun _ => 0) (by decide) (by decide)
  rw [hsize] at hdescribed
  exact hdescribed.1

-- What a heap of the small configuration keeps from one request to the next.
structure Paged (h : Heap) : Prop where
  sound : h.Sound
  searchable : h.Searchable
  placed : h.Placed .small
  index_eq : ∀ i, (h.regions i).index = i

theorem Paged.next (hp : h.Paged) (req : AllocRequest) : (h.allocateContiguous req).2.Paged := by
  obtain ⟨hsound, htouch⟩ := allocateContiguous_sound req hp.sound
  refine ⟨hsound, hp.searchable.allocateContiguous req, ?_, fun i => ?_⟩
  · exact hp.placed.sameShape ⟨htouch.opts_eq, htouch.memStart_eq, htouch.max_eq, htouch.frame⟩
  · rw [(htouch.frame i).index_eq]
    exact hp.index_eq i

theorem Paged.keeps (hp : h.Paged) (req : AllocRequest) (beg : Nat) :
    Keeps (fun _ => pageType) (pageAt (h.regions beg).bottom) h (h.allocateContiguous req).2 beg
      4096 where
  opts_eq := by rw [(hp.next req).placed.opts_eq, hp.placed.opts_eq]
  index_eq := (hp.next req).index_eq beg
  bottom_eq := by rw [(hp.next req).placed.bottom_eq, hp.placed.bottom_eq]
  header := ⟨1, pageAt_described _⟩

theorem newHeap_paged : ∃ h, (newHeap .small).rebuild = .ok h ∧ h.Paged := by
  obtain ⟨fs, heq, _, hmax, _, _, hwithin⟩ := (newHeap .small).rebuild_eq
  refine ⟨(newHeap .small).setFreeSet fs, heq, ?_, ?_, ⟨rfl, rfl, fun _ => rfl, fun _ => rfl⟩,
    fun _ => rfl⟩
  · exact rebuild_sound (Nat.le_refl _) (fun _ _ => rfl) heq
  · exact ⟨HeapConfig.small.geometry, hmax, hwithin (Nat.le_refl _)⟩

theorem trashes_exactly_iff_second : ∃ (h : Heap) (m : Memory), h.Searchable ∧
    (h.allocateContiguous (sharedRequest 4096)).1.mem = some (h.regions 1).bottom ∧
    (h.allocateContiguous (sharedRequest 4096)).2.trashHumongousRegion (fun _ => pageType) m 1 =
      .ok ((h.allocateContiguous (sharedRequest 4096)).2.trashed 1
        (h.opts.requiredRegions (sharedRequest 4096).size)) := by
  have hrun : ((newHeap .small).rebuild.toOption.map fun h =>
      ((h.allocateContiguous (sharedRequest 4096)).2.allocateContiguous
        (sharedRequest 4096)).1.mem) = some (some 8192) := by decide +kernel
  obtain ⟨start, heq, hstart⟩ := newHeap_paged
  rw [heq] at hrun
  have hmem := Option.some.inj hrun
  have hp := hstart.next (sharedRequest 4096)
  have hbottom : ((start.allocateContiguous (sharedRequest 4096)).2.regions 1).bottom = 8192 := by
    rw [hp.placed.bottom_eq]
    rfl
  have hbig : (start.allocateContiguous (sharedRequest 4096)).2.opts.humongousThresholdBytes <
      (sharedRequest 4096).size := by
    rw [hp.placed.opts_eq]
    decide
  rw [← hbottom] at hmem
  exact ⟨_, _, hp.searchable, hmem, (trashes_exactly_iff hp.searchable hp.placed hbig hmem
    (hp.keeps (sharedRequest 4096) 1)).mpr (by decide)⟩

-- A request is served from the bottom of the heap, and an object there cannot be
-- reclaimed.
theorem first_region_underflows : ∃ (h : Heap) (m : Memory), h.Searchable ∧
    (h.allocateContiguous (sharedRequest 4096)).1.mem = some (h.regions 0).bottom ∧
    Keeps (fun _ => pageType) m h (h.allocateContiguous (sharedRequest 4096)).2 0 4096 ∧
    (h.allocateContiguous (sharedRequest 4096)).2.trashHumongousRegion (fun _ => pageType) m 0 =
      .error .arithmeticOverflow := by
  have hrun : ((newHeap .small).rebuild.toOption.map fun h =>
      (h.allocateContiguous (sharedRequest 4096)).1.mem) = some (some 4096) := by decide +kernel
  obtain ⟨start, heq, hp⟩ := newHeap_paged
  rw [heq] at hrun
  have hmem : (start.allocateContiguous (sharedRequest 4096)).1.mem = some 4096 :=
    Option.some.inj hrun
  have hbottom : (start.regions 0).bottom = 4096 := by
    rw [hp.placed.bottom_eq]
    rfl
  have hnum : start.opts.requiredRegions 4096 = 1 := by
    rw [hp.placed.opts_eq]
    decide
  have hregions : (start.allocateContiguous (sharedRequest 4096)).2.numRegions = 10 := by
    unfold numRegions
    rw [(hp.next (sharedRequest 4096)).placed.opts_eq]
    rfl
  have hk := hp.keeps (sharedRequest 4096) 0
  refine ⟨start, _, hp.searchable, by rw [hmem, hbottom], hk, ?_⟩
  rw [hk.trashHumongousRegion_eq (by omega), hnum]
  exact trashLoop_underflow (by omega) (by omega)

end Pages

end Heap

end Rsgc.Storage
