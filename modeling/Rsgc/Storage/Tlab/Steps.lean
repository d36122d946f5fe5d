import Rsgc.Storage.FreeSet.Bounds
import Rsgc.Storage.Tlab

namespace Rsgc.Storage

namespace Heap

variable {h h' : Heap}

-- The step moves no region and changes no sweep flag.
structure SameShape (h h' : Heap) : Prop where
  opts_eq : h'.opts = h.opts
  memStart_eq : h'.memStart = h.memStart
  max_eq : h'.freeSet.max = h.freeSet.max
  frame : ∀ j, (h.regions j).SameFrame (h'.regions j)

theorem SameShape.refl (h : Heap) : h.SameShape h :=
  ⟨rfl, rfl, rfl, fun _ => HeapRegion.SameFrame.refl _⟩

theorem SameShape.trans {h'' : Heap} (a : h.SameShape h') (b : h'.SameShape h'') :
    h.SameShape h'' where
  opts_eq := b.opts_eq.trans a.opts_eq
  memStart_eq := b.memStart_eq.trans a.memStart_eq
  max_eq := b.max_eq.trans a.max_eq
  frame := fun j => (a.frame j).trans (b.frame j)

theorem TouchesFree.sameShape (ht : h.TouchesFree h') : h.SameShape h' :=
  ⟨ht.opts_eq, ht.memStart_eq, ht.max_eq, ht.frame⟩

theorem TouchesOnly.sameShape {i : Nat} (ht : h.TouchesOnly h' i) : h.SameShape h' where
  opts_eq := ht.opts_eq
  memStart_eq := ht.memStart_eq
  max_eq := ht.max_eq
  frame := by
    intro j
    by_cases hj : j = i
    · subst hj
      exact ht.frame
    · rw [(ht.others j hj).1]
      exact HeapRegion.SameFrame.refl _

theorem allocCapacity_mono {opts : HeapOptions} {r r' : HeapRegion} (hframe : r.SameFrame r')
    (htyp : r'.typ = r.typ) (hfree : r.freeList.free ≤ r'.freeList.free) :
    r.allocCapacity opts ≤ r'.allocCapacity opts := by
  have hsize : r'.size = r.size := by
    unfold HeapRegion.size
    rw [hframe.limit_eq, hframe.bottom_eq]
  unfold HeapRegion.allocCapacity HeapRegion.isTrash HeapRegion.free HeapRegion.isEmpty
  rw [htyp, hsize]
  cases r.typ <;> simp [hfree]

-- A region keeps its offer when its free list does not shrink.
theorem Sound.setRegion {i : Nat} {r : HeapRegion} (hs : h.Sound)
    (hframe : (h.regions i).SameFrame r) (htyp : r.typ = (h.regions i).typ)
    (hfree : (h.regions i).freeList.free ≤ r.freeList.free) : (h.setRegion i r).Sound := by
  refine hs.touch (TouchesOnly.setRegion h i hframe) fun hbit => ?_
  have ho := hs.offered i hbit
  refine ⟨ho.lt, ?_, ?_, ?_⟩
  · have hallowed := ho.allowed
    simpa [HeapRegion.isAllocAllowed, HeapRegion.isTrash, HeapRegion.isEmpty, htyp] using hallowed
  · simpa [hframe.toSweep_eq] using ho.swept
  · have hcapacity := ho.capacity
    have hmono : (h.regions i).allocCapacity h.opts ≤ r.allocCapacity h.opts :=
      allocCapacity_mono hframe htyp hfree
    simp only [allocCapacity, setRegion_regions, setRegion_opts, Function.update_self]
    unfold allocCapacity at hcapacity
    omega

theorem Sound.setRegion_sameShape {i : Nat} {r : HeapRegion} (hs : h.Sound)
    (hframe : (h.regions i).SameFrame r) (htyp : r.typ = (h.regions i).typ)
    (hfree : (h.regions i).freeList.free ≤ r.freeList.free) :
    (h.setRegion i r).Sound ∧ h.SameShape (h.setRegion i r) :=
  ⟨hs.setRegion hframe htyp hfree, (TouchesOnly.setRegion h i hframe).sameShape⟩

theorem setStartBit_sound (hs : h.Sound) (i addr : Nat) :
    (h.setStartBit i addr).Sound ∧ h.SameShape (h.setStartBit i addr) :=
  hs.setRegion_sameShape (r := (h.regions i).setStartBit addr)
    ⟨rfl, rfl, rfl, rfl⟩ rfl (Nat.le_refl _)

theorem writeHeader_sound (hs : h.Sound) (addr size : Nat) :
    (h.writeHeader addr size).Sound ∧ h.SameShape (h.writeHeader addr size) :=
  hs.setRegion_sameShape (r := (h.regions (h.regionIndex addr)).writeHeader addr size)
    ⟨rfl, rfl, rfl, rfl⟩ rfl (Nat.le_refl _)

theorem zeroFill_sound (hs : h.Sound) (addr size : Nat) :
    (h.zeroFill addr size).Sound ∧ h.SameShape (h.zeroFill addr size) :=
  hs.setRegion_sameShape (r := { h.regions (h.regionIndex addr) with
    words := fun a => if addr ≤ a ∧ a < addr + size then ⟨0, true⟩
      else (h.regions (h.regionIndex addr)).words a }) ⟨rfl, rfl, rfl, rfl⟩ rfl (Nat.le_refl _)

theorem markLive_sound (hs : h.Sound) (addr : Nat) :
    (h.markLive addr).Sound ∧ h.SameShape (h.markLive addr) := by
  unfold markLive
  simp only
  split
  · exact ⟨hs, SameShape.refl h⟩
  · exact setStartBit_sound hs _ _

theorem addFree_sound {i addr size : Nat} {r : HeapRegion} (hs : h.Sound)
    (hadd : (h.regions i).addFree addr size = .ok r) :
    (h.setRegion i r).Sound ∧ h.SameShape (h.setRegion i r) := by
  obtain ⟨hframe, htyp⟩ := HeapRegion.addFree_sameFrame hadd
  refine hs.setRegion_sameShape hframe htyp ?_
  obtain ⟨l, hl, rfl⟩ := HeapRegion.addFree_eq_ok hadd
  obtain ⟨_, ⟨_, rfl⟩ | ⟨_, hfree, _⟩⟩ := FreeList.add_cases hl
  · exact Nat.le_refl _
  · simp only
    omega

end Heap

namespace ThreadLocalAllocBuffer

variable {tlab tlab' : ThreadLocalAllocBuffer} {h h' : Heap}

theorem allocate_cases {size mem : Nat} (hok : tlab.allocate h size = some (mem, tlab', h')) :
    size ≤ wrapSub tlab.limit tlab.top ∧ mem = tlab.top ∧
      tlab' = { tlab with top := tlab.top + size } ∧
      ∃ index, tlab.bitmap = some index ∧ h' = h.setStartBit index tlab.top := by
  unfold allocate at hok
  split at hok
  · rename_i hle
    cases hbitmap : tlab.bitmap with
    | none => simp [hbitmap] at hok
    | some index =>
        simp only [hbitmap, Option.some_inj, Prod.mk.injEq] at hok
        obtain ⟨rfl, rfl, rfl⟩ := hok
        exact ⟨hle, rfl, rfl, index, rfl, rfl⟩
  · cases hok

-- Retiring a buffer that is in use gives its tail to the free list of its region.
theorem retire_cases (hok : tlab.retire h = .ok (tlab', h')) :
    (tlab.limit = 0 ∧ tlab' = tlab ∧ h' = h) ∨
      (tlab.limit ≠ 0 ∧ tlab' = new ∧
        ((wrapSub tlab.limit tlab.top = 0 ∧ h' = h) ∨
          (wrapSub tlab.limit tlab.top ≠ 0 ∧ ∃ r,
            (h.regions (h.regionIndex tlab.start)).addFree tlab.top
              (wrapSub tlab.limit tlab.top) = .ok r ∧
            h' = h.setRegion (h.regionIndex tlab.start) r))) := by
  unfold retire at hok
  by_cases hlimit : tlab.limit = 0
  · rw [if_neg (by simpa using hlimit), Except.pure_eq_ok, Prod.mk.injEq] at hok
    exact Or.inl ⟨hlimit, hok.1.symm, hok.2.symm⟩
  · rw [if_pos hlimit] at hok
    simp only [Except.bind_eq_ok, Except.pure_eq_ok, Prod.mk.injEq] at hok
    obtain ⟨mid, hfree, rfl, rfl⟩ := hok
    refine Or.inr ⟨hlimit, rfl, ?_⟩
    unfold freeRemaining at hfree
    by_cases htail : wrapSub tlab.limit tlab.top ≠ 0
    · rw [if_pos htail] at hfree
      simp only [Except.bind_eq_ok, Except.pure_eq_ok] at hfree
      obtain ⟨r, hr, rfl⟩ := hfree
      exact Or.inr ⟨htail, r, hr, rfl⟩
    · rw [if_neg htail, Except.pure_eq_ok] at hfree
      exact Or.inl ⟨by simpa using htail, hfree.symm⟩

theorem retire_sound (hs : h.Sound) (hok : tlab.retire h = .ok (tlab', h')) :
    h'.Sound ∧ h.SameShape h' := by
  rcases retire_cases hok with ⟨_, _, rfl⟩ | ⟨_, _, ⟨_, rfl⟩ | ⟨_, r, hr, rfl⟩⟩
  · exact ⟨hs, Heap.SameShape.refl _⟩
  · exact ⟨hs, Heap.SameShape.refl _⟩
  · exact Heap.addFree_sound hs hr

theorem allocate_sound {size mem : Nat} (hs : h.Sound)
    (hok : tlab.allocate h size = some (mem, tlab', h')) : h'.Sound ∧ h.SameShape h' := by
  obtain ⟨_, _, _, index, _, rfl⟩ := allocate_cases hok
  exact Heap.setStartBit_sound hs _ _

end ThreadLocalAllocBuffer

namespace Heap

variable {h h' : Heap}

theorem refill_cases {size : Nat} {found : Option (Nat × ThreadLocalAllocBuffer)}
    (hok : h.refill size = .ok (found, h')) :
    ∃ result mid, h.allocate (labRequest h.opts) = .ok (result, mid) ∧
      ((result.mem = none ∧ found = none ∧ h' = mid) ∨
        ∃ mem, result.mem = some mem ∧
          found = some (mem, ThreadLocalAllocBuffer.initialize_
            (mid.zeroFill mem result.req.actualSize) mem (mem + size)
            (mem + result.req.actualSize)) ∧
          h' = (mid.zeroFill mem result.req.actualSize).setStartBit
            ((mid.zeroFill mem result.req.actualSize).regionIndex mem) mem) := by
  simp only [refill, Except.bind_eq_ok] at hok
  obtain ⟨⟨result, mid⟩, halloc, hrest⟩ := hok
  refine ⟨result, mid, halloc, ?_⟩
  cases hmem : result.mem with
  | none =>
      simp only [hmem, Except.pure_eq_ok, Prod.mk.injEq] at hrest
      exact Or.inl ⟨rfl, hrest.1.symm, hrest.2.symm⟩
  | some mem =>
      simp only [hmem, Except.pure_eq_ok, Prod.mk.injEq] at hrest
      exact Or.inr ⟨mem, rfl, hrest.1.symm, hrest.2.symm⟩

theorem refill_sound {size : Nat} {found : Option (Nat × ThreadLocalAllocBuffer)} (hs : h.Sound)
    (hok : h.refill size = .ok (found, h')) : h'.Sound ∧ h.SameShape h' := by
  obtain ⟨result, mid, halloc, ⟨_, _, rfl⟩ | ⟨mem, _, _, rfl⟩⟩ := refill_cases hok
  · obtain ⟨hmid, htouch⟩ := allocate_sound hs halloc
    exact ⟨hmid, htouch.sameShape⟩
  · obtain ⟨hmid, htouch⟩ := allocate_sound hs halloc
    obtain ⟨hzero, hshape⟩ := zeroFill_sound hmid mem result.req.actualSize
    obtain ⟨hbit, hshape'⟩ := setStartBit_sound hzero
      ((mid.zeroFill mem result.req.actualSize).regionIndex mem) mem
    exact ⟨hbit, (htouch.sameShape.trans hshape).trans hshape'⟩

theorem allocateOutsideTlab_cases {size : Nat} {found : Option Nat}
    (hok : h.allocateOutsideTlab size = .ok (found, h')) :
    ∃ result mid, h.allocate (sharedRequest size) = .ok (result, mid) ∧ found = result.mem ∧
      ((result.mem = none ∧ h' = mid) ∨
        ∃ mem, result.mem = some mem ∧ h' = mid.markLive mem) := by
  simp only [allocateOutsideTlab, Except.bind_eq_ok] at hok
  obtain ⟨⟨result, mid⟩, halloc, hrest⟩ := hok
  cases hmem : result.mem with
  | none =>
      simp only [hmem, Except.pure_eq_ok, Prod.mk.injEq] at hrest
      exact ⟨result, mid, halloc, by rw [hmem]; exact hrest.1.symm, Or.inl ⟨hmem, hrest.2.symm⟩⟩
  | some mem =>
      simp only [hmem, Except.pure_eq_ok, Prod.mk.injEq] at hrest
      exact ⟨result, mid, halloc, by rw [hmem]; exact hrest.1.symm,
        Or.inr ⟨mem, hmem, hrest.2.symm⟩⟩

theorem allocateOutsideTlab_sound {size : Nat} {found : Option Nat} (hs : h.Sound)
    (hok : h.allocateOutsideTlab size = .ok (found, h')) : h'.Sound ∧ h.SameShape h' := by
  obtain ⟨result, mid, halloc, _, ⟨_, rfl⟩ | ⟨mem, _, rfl⟩⟩ := allocateOutsideTlab_cases hok
  · obtain ⟨hmid, htouch⟩ := allocate_sound hs halloc
    exact ⟨hmid, htouch.sameShape⟩
  · obtain ⟨hmid, htouch⟩ := allocate_sound hs halloc
    obtain ⟨hlive, hshape⟩ := markLive_sound hmid mem
    exact ⟨hlive, htouch.sameShape.trans hshape⟩

end Heap

end Rsgc.Storage
