import Rsgc.Storage.Layout
import Rsgc.Storage.Tlab.Refill

namespace Rsgc.Storage

namespace ThreadLocalAllocBuffer

-- The part of an open buffer that holds no object, as a block of region `i`.
def tail (tlab : ThreadLocalAllocBuffer) (i : Nat) : List Space :=
  if tlab.bitmap = some i ∧ tlab.top < tlab.limit then
    [⟨tlab.top, tlab.limit - tlab.top, .tail⟩]
  else []

-- A buffer is closed, or lies in the region it points to.
def Ok (tlab : ThreadLocalAllocBuffer) (h : Heap) : Prop :=
  tlab = new ∨ ∃ i, i < h.numRegions ∧ tlab.bitmap = some i ∧ h.regionIndex tlab.start = i ∧
    tlab.start ≤ tlab.top ∧ tlab.top ≤ tlab.limit ∧ 0 < tlab.limit

variable {tlab : ThreadLocalAllocBuffer} {h h' : Heap}

theorem Ok.sameShape (hok : tlab.Ok h) (hs : h.SameShape h') : tlab.Ok h' := by
  rcases hok with rfl | ⟨i, hi, hbitmap, hindex, hrest⟩
  · exact Or.inl rfl
  · refine Or.inr ⟨i, ?_, hbitmap, ?_, hrest⟩
    · unfold Heap.numRegions
      rw [hs.opts_eq]
      exact hi
    · unfold Heap.regionIndex
      rw [hs.opts_eq, hs.memStart_eq]
      exact hindex

theorem tail_new (i : Nat) : new.tail i = [] := by simp [tail, new]

theorem tail_of_ne {i j : Nat} (hbitmap : tlab.bitmap = some i) (hne : j ≠ i) :
    tlab.tail j = [] := by
  simp [tail, hbitmap, Ne.symm hne]

-- What is left of `size` bytes at `addr` when `kept` of them are in use.
theorem tail_carved {addr size kept i : Nat} (hbitmap : tlab.bitmap = some i)
    (htop : tlab.top = addr + kept) (hlimit : tlab.limit = addr + size) (hle : kept ≤ size) :
    tlab.tail i = if kept = size then [] else [⟨addr + kept, size - kept, .tail⟩] := by
  unfold tail
  rw [htop, hlimit]
  by_cases hkept : kept = size
  · rw [if_pos hkept, if_neg (by omega)]
  · have hrest : addr + size - (addr + kept) = size - kept := by omega
    rw [if_neg hkept, if_pos ⟨hbitmap, by omega⟩, hrest]

end ThreadLocalAllocBuffer

namespace Heap

variable {c : HeapConfig} {h h' : Heap} {held rest : Nat → List Space}

-- An address inside a block of a region belongs to that region.
theorem Laid.regionIndex_tail {i addr size : Nat} {blocks : List Space} (hl : h.Laid held)
    (hp : h.Placed c) (hi : i < h.numRegions)
    (hheld : held i = ⟨addr, size, .tail⟩ :: blocks) :
    (h.regions i).typ = .regular ∧ h.regionIndex addr = i ∧ (h.regions i).toSweep = false ∧
      size ≤ c.opts.regionSizeBytes ∧
      (h.regions i).Filled (⟨addr, size, .tail⟩ :: blocks ++ (h.regions i).freeBlocks) := by
  have hlayout := hl.region i hi
  rw [hheld] at hlayout
  obtain ⟨htyp, hfilled⟩ := hlayout.filled_of_tail List.mem_cons_self rfl
  have hmem : (⟨addr, size, .tail⟩ : Space) ∈
      ⟨addr, size, .tail⟩ :: blocks ++ (h.regions i).freeBlocks := List.mem_cons_self
  have hpos := hfilled.covers.size_pos hmem
  obtain ⟨hlow, hhigh⟩ := hfilled.covers.within hmem
  simp only [Block.stop] at hlow hhigh hpos
  refine ⟨htyp, hp.regionIndex_eq hlow (by omega), ?_, ?_, hfilled⟩
  · by_contra hsweep
    have hidle := hl.idle i hi (by simpa using hsweep) ⟨addr, size, .tail⟩
      (by rw [hheld]; exact List.mem_cons_self)
    exact hidle rfl
  · rw [hp.limit_eq] at hhigh
    omega

-- The object is written at the start of memory that was handed out.
theorem Laid.carve {i addr size kept : Nat} {blocks : List Space}
    (hl : h.Laid (Function.update held i (⟨addr, size, .tail⟩ :: blocks))) (hp : h.Placed c)
    (hi : i < h.numRegions) (hdvd : 16 ∣ kept) (hpos : 0 < kept) (hle : kept ≤ size) :
    h.regionIndex addr = i ∧
      ((h.setStartBit i addr).writeHeader addr kept).Laid (Function.update held i
        (⟨addr, kept, .object⟩ ::
          (if kept = size then blocks else ⟨addr + kept, size - kept, .tail⟩ :: blocks))) := by
  obtain ⟨htyp, hindex, hsweep, _, hfilled⟩ :=
    hl.regionIndex_tail hp hi (Function.update_self i _ held)
  refine ⟨hindex, ?_⟩
  have hwrite : (h.setStartBit i addr).writeHeader addr kept = (h.setStartBit i addr).setRegion i
      (((h.regions i).setStartBit addr).writeHeader addr kept) := by
    have hsame : (h.setStartBit i addr).regionIndex addr = i := hindex
    unfold writeHeader
    rw [hsame]
    simp [setStartBit]
  have htouch : h.TouchesOnly ((h.setStartBit i addr).writeHeader addr kept) i := by
    rw [hwrite]
    have hbit : h.TouchesOnly (h.setStartBit i addr) i :=
      TouchesOnly.setRegion h i ⟨rfl, rfl, rfl, rfl⟩
    refine hbit.trans (TouchesOnly.setRegion _ i ?_)
    simp only [setStartBit, setRegion_regions, Function.update_self]
    exact ⟨rfl, rfl, rfl, rfl⟩
  have hregion : ((h.setStartBit i addr).writeHeader addr kept).regions i =
      ((h.regions i).setStartBit addr).writeHeader addr kept := by
    rw [hwrite]
    simp
  have hcarved := hl.touch (i := i) (⟨addr, kept, .object⟩ ::
      (if kept = size then blocks else ⟨addr + kept, size - kept, .tail⟩ :: blocks)) htouch
    (fun _ => ?_) (by simp [htyp]) ?_ ?_
  · rwa [Function.update_idem] at hcarved
  · rw [hregion]
    refine HeapRegion.layout_of_filled htyp ?_
    have hcut := hfilled.carve hdvd hpos hle
    have hfree : (((h.regions i).setStartBit addr).writeHeader addr kept).freeBlocks =
        (h.regions i).freeBlocks := rfl
    rw [hfree]
    split
    · rename_i hkept
      rw [if_pos hkept] at hcut
      exact hcut
    · rename_i hkept
      rw [if_neg hkept] at hcut
      exact hcut
  · rw [hregion]
    simp [HeapRegion.writeHeader, HeapRegion.setStartBit, htyp]
  · rw [hregion]
    simp [HeapRegion.writeHeader, HeapRegion.setStartBit, hsweep]

-- Memory that was just handed out is cleared before it is used.
theorem Laid.zeroFill {i addr size : Nat} {blocks : List Space}
    (hl : h.Laid (Function.update held i (⟨addr, size, .tail⟩ :: blocks))) (hp : h.Placed c)
    (hi : i < h.numRegions) :
    (h.zeroFill addr size).Laid (Function.update held i (⟨addr, size, .tail⟩ :: blocks)) := by
  obtain ⟨htyp, hindex, hsweep, _, hfilled⟩ :=
    hl.regionIndex_tail hp hi (Function.update_self i _ held)
  have hmem : (⟨addr, size, .tail⟩ : Space) ∈
      ⟨addr, size, .tail⟩ :: (blocks ++ (h.regions i).freeBlocks) := List.mem_cons_self
  have htouch : h.TouchesOnly (h.zeroFill addr size) i := by
    unfold Heap.zeroFill
    rw [hindex]
    exact TouchesOnly.setRegion h i ⟨rfl, rfl, rfl, rfl⟩
  have hregion : (h.zeroFill addr size).regions i = { h.regions i with
      words := fun a => if addr ≤ a ∧ a < addr + size then ⟨0, true⟩ else (h.regions i).words a } := by
    unfold Heap.zeroFill
    rw [hindex]
    simp
  have hzeroed := hl.touch (i := i) (⟨addr, size, .tail⟩ :: blocks) htouch
    (fun _ => ?_) (by simp [htyp]) ?_ ?_
  · rwa [Function.update_idem] at hzeroed
  · rw [hregion]
    refine HeapRegion.layout_of_filled htyp ?_
    have hpos := hfilled.covers.size_pos hmem
    refine hfilled.exchange [⟨addr, size, .tail⟩] ⟨rfl, rfl, rfl, rfl⟩ ⟨rfl, hpos, rfl⟩ ?_ ?_
    · intro b hb
      obtain rfl := List.mem_singleton.mp hb
      exact ⟨(hfilled.described _ hmem).1, trivial⟩
    · intro a ha
      unfold Block.stop at ha
      simp only at ha
      refine ⟨?_, rfl⟩
      simp only
      rw [if_neg (by omega)]
  · rw [hregion]
    simp [htyp]
  · rw [hregion]
    simp [hsweep]

theorem Laid.ofUpdate {i : Nat} {blocks : List Space} (hl : h.Laid (Function.update held i blocks))
    {held' : Nat → List Space} (hsame : held' i = blocks) (hother : ∀ j, j ≠ i → held' j = held j) :
    h.Laid held' := by
  have heq : Function.update held i blocks = held' := by
    funext j
    by_cases hj : j = i
    · subst hj
      rw [Function.update_self, hsame]
    · rw [Function.update_of_ne hj, hother j hj]
  rwa [heq] at hl

theorem wrapSub_eq {a b : Nat} (hle : b ≤ a) (hlt : a - b < usizeRange) : wrapSub a b = a - b := by
  have hsum : a + usizeRange - b = a - b + usizeRange := by omega
  rw [wrapSub, wrap, hsum, Nat.add_mod_right, Nat.mod_eq_of_lt hlt]

theorem Laid.tail_size {tlab : ThreadLocalAllocBuffer} (hok : tlab.Ok h) (hp : h.Placed c)
    (hl : h.Laid fun i => tlab.tail i ++ rest i) :
    wrapSub tlab.limit tlab.top = tlab.limit - tlab.top := by
  rcases hok with rfl | ⟨i, hi, hbitmap, _, _, htop, _⟩
  · rfl
  · apply wrapSub_eq htop
    by_cases hlt : tlab.top < tlab.limit
    · have htail : tlab.tail i ++ rest i =
          ⟨tlab.top, tlab.limit - tlab.top, .tail⟩ :: rest i := by
        simp [ThreadLocalAllocBuffer.tail, hbitmap, hlt]
      obtain ⟨_, _, _, hle, _⟩ := hl.regionIndex_tail hp hi htail
      have hsize := c.geometry.size_lt
      omega
    · have hpos : 0 < usizeRange := by decide
      omega

-- Retiring a buffer makes its tail free again and leaves the buffer closed.
theorem Laid.retire {tlab tlab' : ThreadLocalAllocBuffer} (hok : tlab.Ok h) (hp : h.Placed c)
    (hl : h.Laid fun i => tlab.tail i ++ rest i) (hretire : tlab.retire h = .ok (tlab', h')) :
    h'.Laid rest ∧ tlab' = .new := by
  have hsize := hl.tail_size hok hp
  rcases ThreadLocalAllocBuffer.retire_cases hretire with ⟨hzero, rfl, rfl⟩ |
    ⟨hlimit, rfl, hcases⟩
  · rcases hok with rfl | ⟨i, _, _, _, _, _, hpos⟩
    · refine ⟨hl.perm fun i => ?_, rfl⟩
      rw [ThreadLocalAllocBuffer.tail_new]
      exact List.Perm.refl _
    · omega
  · refine ⟨?_, rfl⟩
    rcases hok with rfl | ⟨i, hi, hbitmap, hindex, _, htop, _⟩
    · exact absurd rfl hlimit
    · rcases hcases with ⟨hempty, rfl⟩ | ⟨hne, r, hadd, rfl⟩
      · refine hl.perm fun j => ?_
        have hnil : tlab.tail j = [] := by
          unfold ThreadLocalAllocBuffer.tail
          rw [if_neg]
          omega
        rw [hnil]
        exact List.Perm.refl _
      · rw [hindex, hsize] at hadd
        rw [hindex]
        have hlt : tlab.top < tlab.limit := by omega
        have htail : tlab.tail i ++ rest i =
            ⟨tlab.top, tlab.limit - tlab.top, .tail⟩ :: rest i := by
          simp [ThreadLocalAllocBuffer.tail, hbitmap, hlt]
        obtain ⟨htyp, _, hsweep, _, hfilled⟩ := hl.regionIndex_tail hp hi htail
        obtain ⟨hframe, htyp'⟩ := HeapRegion.addFree_sameFrame hadd
        have hgiven := hl.touch (i := i) (rest i) (TouchesOnly.setRegion h i hframe)
          (fun _ => ?_) (by simp [htyp]) ?_ ?_
        · refine hgiven.ofUpdate rfl fun j hj => ?_
          rw [ThreadLocalAllocBuffer.tail_of_ne hbitmap hj]
          rfl
        · rw [setRegion_regions, Function.update_self]
          exact HeapRegion.layout_of_filled (htyp'.trans htyp) (hfilled.giveBack hadd)
        · rw [setRegion_regions, Function.update_self, htyp', htyp]
          simp
        · rw [setRegion_regions, Function.update_self, hframe.toSweep_eq, hsweep]
          simp

theorem Laid.toUpdate {i : Nat} {blocks : List Space} (hl : h.Laid held) (hheld : held i = blocks) :
    h.Laid (Function.update held i blocks) := by
  rwa [← hheld, Function.update_eq_self]

-- The blocks of region `i` with a new object at the front.
def withObject (i mem size : Nat) (others : Nat → List Space) : Nat → List Space :=
  fun j => (if j = i then [⟨mem, size, .object⟩] else []) ++ others j

theorem Laid.bump {tlab tlab' : ThreadLocalAllocBuffer} {size mem : Nat} (hok : tlab.Ok h)
    (hp : h.Placed c) (hl : h.Laid fun i => tlab.tail i ++ rest i) (hdvd : 16 ∣ size)
    (hpos : 0 < size) (halloc : tlab.allocate h size = some (mem, tlab', h')) :
    ∃ i, i < h.numRegions ∧ h.regionIndex mem = i ∧ tlab'.Ok h ∧
      (h'.writeHeader mem size).Laid
        (withObject i mem size fun j => tlab'.tail j ++ rest j) := by
  have hsize := hl.tail_size hok hp
  obtain ⟨hle, rfl, htlab, index, hbitmap, rfl⟩ := ThreadLocalAllocBuffer.allocate_cases halloc
  rw [hsize] at hle
  rcases hok with rfl | ⟨i, hi, hbitmap', hindex, hstart, htop, hlimit⟩
  · simp [ThreadLocalAllocBuffer.new] at hbitmap
  · obtain rfl : i = index := by
      rw [hbitmap] at hbitmap'
      exact (Option.some.inj hbitmap').symm
    have hheld : tlab.tail i ++ rest i = ⟨tlab.top, tlab.limit - tlab.top, .tail⟩ :: rest i := by
      simp [ThreadLocalAllocBuffer.tail, hbitmap, show tlab.top < tlab.limit by omega]
    obtain ⟨hregion, hcarved⟩ := (hl.toUpdate hheld).carve hp hi hdvd hpos hle
    have hbitmap'' : tlab'.bitmap = some i := by
      rw [htlab]
      exact hbitmap
    refine ⟨i, hi, hregion, ?_, ?_⟩
    · rw [htlab]
      exact Or.inr ⟨i, hi, hbitmap, hindex, by simp only; omega, by simp only; omega, hlimit⟩
    · have htop' : tlab'.top = tlab.top + size := by rw [htlab]
      have hlimit' : tlab'.limit = tlab.top + (tlab.limit - tlab.top) := by
        rw [htlab]
        simp only
        omega
      have htail := ThreadLocalAllocBuffer.tail_carved hbitmap'' htop' hlimit' hle
      refine hcarved.ofUpdate ?_ fun j hj => ?_
      · simp only [withObject, if_true, htail]
        split <;> rfl
      · simp only [withObject, if_neg hj, ThreadLocalAllocBuffer.tail_of_ne hbitmap hj,
          ThreadLocalAllocBuffer.tail_of_ne hbitmap'' hj]
        rfl

-- Buffers are made of whole headers, and come from the free lists.
structure AlignedTlabs (opts : HeapOptions) : Prop where
  tlab_dvd : 16 ∣ threadTlabSize opts
  tlab_le : threadTlabSize opts ≤ opts.humongousThresholdBytes

instance (opts : HeapOptions) : Decidable (AlignedTlabs opts) :=
  decidable_of_iff (16 ∣ threadTlabSize opts ∧ threadTlabSize opts ≤ opts.humongousThresholdBytes)
    ⟨fun h => ⟨h.1, h.2⟩, fun h => ⟨h.tlab_dvd, h.tlab_le⟩⟩

theorem Laid.refill {size : Nat} {found : Option (Nat × ThreadLocalAllocBuffer)}
    (haligned : AlignedTlabs c.opts) (hl : h.Laid held) (hp : h.Placed c) (hs : h.Sound)
    (hdvd : 16 ∣ size) (hpos : 0 < size) (hle : size ≤ threadTlabSize c.opts)
    (hroom : h.HasRoom size) (hok : h.refill size = .ok (found, h')) :
    (found = none ∧ h'.Laid held) ∨
      ∃ mem tlab i, found = some (mem, tlab) ∧ i < h'.numRegions ∧ h'.regionIndex mem = i ∧
        tlab.Ok h' ∧ (h'.writeHeader mem size).Laid
          (withObject i mem size fun j => tlab.tail j ++ held j) := by
  obtain ⟨result, mid, halloc, hcases⟩ := refill_cases hok
  have hreq : (labRequest h.opts).size = threadTlabSize c.opts := by
    rw [hp.opts_eq]
    rfl
  have hmin : 0 < (labRequest h.opts).minSize := by
    have hge := c.geometry.minTlab_ge
    rw [hp.opts_eq]
    exact Nat.lt_of_lt_of_le (by omega) hge
  obtain ⟨hmidSound, htouch⟩ := allocate_sound hs halloc
  have hmid := hp.sameShape htouch.sameShape
  have hsize : size ≤ threadTlabSize h.opts := by
    rw [hp.opts_eq]
    exact hle
  have hactualSize := labRequest_actualSize hsize halloc
  unfold Heap.allocate at halloc
  rw [if_neg (by rw [hreq, hp.opts_eq]; exact Nat.not_lt.mpr haligned.tlab_le)] at halloc
  have hsingle := hl.allocateSingleLoop hp hs (by rw [hreq]; exact haligned.tlab_dvd)
    (by rw [hreq]; omega) hmin halloc
  rcases hsingle with ⟨hnone, hlaid⟩ |
    ⟨mem, i, actual, hmem, hactual, hdvdActual, _, _, hi, _, hlaid⟩
  · rcases hcases with ⟨_, rfl, rfl⟩ | ⟨mem, hmem, _⟩
    · exact Or.inl ⟨rfl, hlaid⟩
    · simp [hnone] at hmem
  · rcases hcases with ⟨hnone, _, _⟩ | ⟨mem', hmem', rfl, rfl⟩
    · simp [hmem] at hnone
    · obtain rfl : mem = mem' := by
        rw [hmem] at hmem'
        exact Option.some.inj hmem'
      have hleActual : size ≤ actual := by
        rw [← hactual]
        exact (hactualSize (by simp [hmem])).mpr hroom
      rw [hactual]
      have hzero := hlaid.zeroFill hmid hi
      have hshape := (zeroFill_sound hmidSound mem actual).2
      have hzeroPlaced := hmid.sameShape hshape
      have hi' : i < (mid.zeroFill mem actual).numRegions := hi
      obtain ⟨hindex, hcarved⟩ := hzero.carve hzeroPlaced hi' hdvd hpos hleActual
      rw [hindex]
      refine Or.inr ⟨mem, _, i, rfl, hi', hindex, ?_, ?_⟩
      · refine Or.inr ⟨i, hi', ?_, hindex, ?_, ?_, ?_⟩
        · simp [ThreadLocalAllocBuffer.initialize_, hindex]
        · simp [ThreadLocalAllocBuffer.initialize_]
        · simpa [ThreadLocalAllocBuffer.initialize_] using hleActual
        · simp only [ThreadLocalAllocBuffer.initialize_]
          omega
      · have hbitmap : (ThreadLocalAllocBuffer.initialize_ (mid.zeroFill mem actual) mem
            (mem + size) (mem + actual)).bitmap = some i := by
          simp [ThreadLocalAllocBuffer.initialize_, hindex]
        have htail := ThreadLocalAllocBuffer.tail_carved hbitmap rfl rfl hleActual
        refine hcarved.ofUpdate ?_ fun j hj => ?_
        · simp only [withObject, if_true, htail]
          split <;> rfl
        · simp only [withObject, if_neg hj, ThreadLocalAllocBuffer.tail_of_ne hbitmap hj]
          rfl

-- An object outside a buffer lies in a regular region, or alone in a run of
-- regions when it is larger than the humongous threshold.
theorem Laid.allocateOutsideTlab {size : Nat} {found : Option Nat} (hl : h.Laid held)
    (hp : h.Placed c) (hs : h.Sound) (hdvd : 16 ∣ size) (hpos : 0 < size)
    (hok : h.allocateOutsideTlab size = .ok (found, h')) :
    (found = none ∧ h'.Laid held) ∨
      ∃ mem i, found = some mem ∧ i < h'.numRegions ∧ h'.regionIndex mem = i ∧
        (h'.writeHeader mem size).Laid (withObject i mem size held) := by
  obtain ⟨result, mid, halloc, rfl, hcases⟩ := allocateOutsideTlab_cases hok
  obtain ⟨hmidSound, htouch⟩ := allocate_sound hs halloc
  have hmid := hp.sameShape htouch.sameShape
  have hwith : ∀ i mem, Function.update held i (⟨mem, size, .object⟩ :: held i) =
      withObject i mem size held := by
    intro i mem
    funext j
    unfold withObject
    by_cases hj : j = i
    · subst hj
      simp
    · simp [hj]
  have hreq : (sharedRequest size).size = size := rfl
  by_cases hbig : h.opts.humongousThresholdBytes < size
  · -- a run of regions
    have hcontiguous : h.allocateContiguous (sharedRequest size) = (result, mid) := by
      unfold Heap.allocate at halloc
      rw [hreq, if_pos hbig, Except.pure_eq_ok] at halloc
      exact halloc
    rcases allocateContiguous_cases h (sharedRequest size) with heq | ⟨beg, hfound, heq⟩
    · rw [hcontiguous] at heq
      obtain ⟨rfl, rfl⟩ := Prod.mk.inj heq
      rcases hcases with ⟨_, rfl⟩ | ⟨mem, hmem, _⟩
      · exact Or.inl ⟨rfl, hl⟩
      · cases hmem
    · rw [hcontiguous] at heq
      change (result, mid) = (h.claimRun beg (h.opts.requiredRegions size)).finishContiguous
        (sharedRequest size) beg (h.opts.requiredRegions size) at heq
      change h.findRun (h.opts.requiredRegions size) _ _ _ = some beg at hfound
      obtain ⟨hnum, hrun⟩ := findRun_spec (Nat.le_refl _) (fun j hl hr => by omega) hfound
      obtain ⟨_, _, hregions, _⟩ := finishContiguous_eq
        (h.claimRun beg (h.opts.requiredRegions size)) (sharedRequest size) beg
        (h.opts.requiredRegions size)
      rw [← heq] at hregions
      have hmem : result.mem = some (h.regions beg).bottom := by
        have hresult : result.mem = some (mid.regions beg).bottom := by
          have hfst := congrArg (fun x => x.1.mem) heq
          rw [finishContiguous_result] at hfst
          rw [hregions]
          exact hfst
        rw [hresult, hmid.bottom_eq, hp.bottom_eq]
      have hfree : ∀ j, beg ≤ j → j < beg + h.opts.requiredRegions size →
          j < h.numRegions ∧ h.canAllocateFrom j = true := by
        intro j hl' hr
        obtain ⟨_, hbit, hcan⟩ := hrun j hl' hr
        exact ⟨(hs.offered j hbit).lt, hcan⟩
      have hindex : mid.regionIndex (h.regions beg).bottom = beg := by
        have hbottom : (mid.regions beg).bottom = (h.regions beg).bottom := by
          rw [hmid.bottom_eq, hp.bottom_eq]
        apply hmid.regionIndex_eq
        · rw [hbottom]
        · rw [← hbottom]
          exact hmid.lt_limit beg
      -- the start region of the run has no start bit to set
      have hlive : h' = mid := by
        rcases hcases with ⟨hnone, _⟩ | ⟨mem, hmem', rfl⟩
        · simp [hmem] at hnone
        · obtain rfl : (h.regions beg).bottom = mem := by
            rw [hmem] at hmem'
            exact Option.some.inj hmem'
          unfold markLive
          simp only [hindex]
          have hin : beg ≤ beg ∧ beg < beg + h.opts.requiredRegions size := by omega
          have hstart : (mid.regions beg).isHumongousStart = true := by
            rw [hregions, (claimRun_regions h beg _ beg).2, if_pos hin,
              HeapRegion.isHumongousStart, (claimHumongous_region h beg beg).1, if_pos rfl]
            rfl
          rw [if_pos hstart]
      subst hlive
      have hclaimed := hl.claimRun hp hpos hdvd hfree hnum hmid hregions
      rw [hwith] at hclaimed
      refine Or.inr ⟨_, beg, hmem, ?_, hindex, hclaimed⟩
      unfold numRegions
      rw [hmid.opts_eq, ← hp.opts_eq]
      exact (hfree beg (Nat.le_refl _) (by omega)).1
  · unfold Heap.allocate at halloc
    rw [hreq, if_neg hbig] at halloc
    have hsingle := hl.allocateSingleLoop hp hs (by rw [hreq]; exact hdvd)
      (by rw [hreq]; exact hpos) hpos halloc
    rcases hsingle with ⟨hnone, hlaid⟩ |
      ⟨mem, i, actual, hmem, _, _, _, hrigid, hi, htyp, hlaid⟩
    · rcases hcases with ⟨_, rfl⟩ | ⟨mem, hmem, _⟩
      · exact Or.inl ⟨hnone, hlaid⟩
      · simp [hnone] at hmem
    · rcases hcases with ⟨hnone, _⟩ | ⟨mem', hmem', rfl⟩
      · simp [hmem] at hnone
      · obtain rfl : mem = mem' := by
          rw [hmem] at hmem'
          exact Option.some.inj hmem'
        obtain rfl : actual = size := hrigid (by simp [sharedRequest, AllocRequest.forLab,
          AllocRequest.new])
        obtain ⟨hindex, hcarved⟩ := hlaid.carve hmid hi hdvd hpos (Nat.le_refl _)
        have hlive : mid.markLive mem = mid.setStartBit i mem := by
          unfold markLive
          simp only [hindex]
          rw [if_neg (by simp [HeapRegion.isHumongousStart, htyp])]
        rw [hlive, hmem]
        rw [if_pos rfl, hwith] at hcarved
        exact Or.inr ⟨mem, i, rfl, hi, hindex, hcarved⟩

end Heap

end Rsgc.Storage
