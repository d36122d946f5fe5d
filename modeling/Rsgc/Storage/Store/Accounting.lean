import Rsgc.Storage.FreeSet.Accounting
import Rsgc.Storage.Store.Bounds

namespace Rsgc.Storage

namespace Heap

variable {h h' : Heap}

-- Steps that leave the counters and the free bytes of all regions alone, but for
-- a region that the free set does not offer.
structure Uncounted (h h' : Heap) : Prop where
  opts_eq : h'.opts = h.opts
  freeSet_eq : h'.freeSet = h.freeSet
  region : ∀ i, h.freeSet.isMutatorFree i = true → (h'.regions i).typ = (h.regions i).typ ∧
    (h'.regions i).freeList = (h.regions i).freeList ∧ (h'.regions i).size = (h.regions i).size

theorem Uncounted.refl (h : Heap) : h.Uncounted h := ⟨rfl, rfl, fun _ _ => ⟨rfl, rfl, rfl⟩⟩

theorem Uncounted.trans {h'' : Heap} (a : h.Uncounted h') (b : h'.Uncounted h'') :
    h.Uncounted h'' where
  opts_eq := b.opts_eq.trans a.opts_eq
  freeSet_eq := b.freeSet_eq.trans a.freeSet_eq
  region := by
    intro i hi
    obtain ⟨htyp, hlist, hsize⟩ := a.region i hi
    obtain ⟨htyp', hlist', hsize'⟩ := b.region i (by rw [a.freeSet_eq]; exact hi)
    exact ⟨htyp'.trans htyp, hlist'.trans hlist, hsize'.trans hsize⟩

theorem Uncounted.offeredBytes_eq (hu : h.Uncounted h') : h'.offeredBytes = h.offeredBytes := by
  have hshare : h'.share = h.share := by
    funext i
    unfold share
    rw [hu.freeSet_eq]
    cases hbit : h.freeSet.isMutatorFree i with
    | false => rfl
    | true =>
        obtain ⟨htyp, hlist, hsize⟩ := hu.region i hbit
        unfold allocCapacity HeapRegion.allocCapacity HeapRegion.isTrash HeapRegion.free
          HeapRegion.isEmpty
        rw [hu.opts_eq, htyp, hlist, hsize]
  unfold offeredBytes numRegions
  rw [hshare, hu.opts_eq]

theorem Uncounted.measured (hu : h.Uncounted h') (hm : h.Measured) : h'.Measured := by
  refine ⟨fun i hi => ?_, ?_, fun i hi => ?_, fun i hi hempty => ?_⟩
  · rw [hu.freeSet_eq] at hi
    unfold numRegions
    rw [hu.opts_eq]
    exact hm.lt i hi
  · rw [hu.opts_eq]
    exact hm.size_ge
  · rw [hu.freeSet_eq] at hi
    rw [hu.opts_eq, (hu.region i hi).2.2]
    exact hm.size_eq i hi
  · rw [hu.freeSet_eq] at hi
    obtain ⟨htyp, hlist, _⟩ := hu.region i hi
    rw [hlist]
    refine hm.empty i hi ?_
    unfold HeapRegion.isEmpty at hempty ⊢
    rwa [htyp] at hempty

theorem Uncounted.setRegion {i : Nat} {r : HeapRegion}
    (hregion : h.freeSet.isMutatorFree i = true → r.typ = (h.regions i).typ ∧
      r.freeList = (h.regions i).freeList ∧ r.size = (h.regions i).size) :
    h.Uncounted (h.setRegion i r) := by
  refine ⟨rfl, rfl, fun j hj => ?_⟩
  by_cases hji : j = i
  · subst hji
    rw [setRegion_regions, Function.update_self]
    exact hregion hj
  · rw [setRegion_regions, Function.update_of_ne hji]
    exact ⟨rfl, rfl, rfl⟩

theorem setStartBit_uncounted (h : Heap) (i addr : Nat) : h.Uncounted (h.setStartBit i addr) :=
  Uncounted.setRegion fun _ => ⟨rfl, rfl, rfl⟩

theorem writeHeader_uncounted (h : Heap) (addr size : Nat) :
    h.Uncounted (h.writeHeader addr size) :=
  Uncounted.setRegion fun _ => ⟨rfl, rfl, rfl⟩

theorem zeroFill_uncounted (h : Heap) (addr size : Nat) : h.Uncounted (h.zeroFill addr size) :=
  Uncounted.setRegion fun _ => ⟨rfl, rfl, rfl⟩

theorem markLive_uncounted (h : Heap) (addr : Nat) : h.Uncounted (h.markLive addr) := by
  unfold markLive
  simp only
  split
  · exact Uncounted.refl h
  · exact setStartBit_uncounted h _ addr

end Heap

-- What a retired buffer gives back is not offered a second time: it is too short
-- for the free list, or its region is no longer in the free set.
def ThreadLocalAllocBuffer.Spent (tlab : ThreadLocalAllocBuffer) (h : Heap) : Prop :=
  tlab.limit = 0 ∨ wrapSub tlab.limit tlab.top < ENTRY_SIZE ∨
    h.freeSet.isMutatorFree (h.regionIndex tlab.start) = false

instance (tlab : ThreadLocalAllocBuffer) (h : Heap) : Decidable (tlab.Spent h) := by
  unfold ThreadLocalAllocBuffer.Spent
  infer_instance

theorem ThreadLocalAllocBuffer.retire_uncounted {tlab tlab' : ThreadLocalAllocBuffer}
    {h h' : Heap} (hspent : tlab.Spent h) (hok : tlab.retire h = .ok (tlab', h')) :
    h.Uncounted h' := by
  rcases retire_cases hok with ⟨_, _, rfl⟩ | ⟨hlimit, _, ⟨_, rfl⟩ | ⟨_, r, hadd, rfl⟩⟩
  · exact Heap.Uncounted.refl _
  · exact Heap.Uncounted.refl _
  · refine Heap.Uncounted.setRegion fun hbit => ?_
    obtain ⟨l, hl, rfl⟩ := HeapRegion.addFree_eq_ok hadd
    rcases hspent with hzero | hsmall | hgone
    · exact absurd hzero hlimit
    · rcases FreeList.add_cases hl with ⟨_, ⟨_, heq⟩ | ⟨hlarge, _⟩⟩
      · exact ⟨rfl, heq, rfl⟩
      · omega
    · rw [hgone] at hbit
      cases hbit

namespace StoreEvent

-- The steps between two rebuilds that go through the heap lock or a buffer.
def isMutator : StoreEvent → Bool
  | .register | .bump _ _ | .refill _ _ | .retire _ | .shared _ => true
  | _ => false

end StoreEvent

-- All threads together from a rebuild on, with whatever buffers they have.
def mutatorMachine (c : HeapConfig) (mode : BarrierMode) : Machine Store StoreEvent where
  init := fun s => ∃ before : Heap, before.Sized c ∧ before.rebuild = .ok s.heap
  step := fun s e => if e.isMutator then s.step mode e else none

namespace Store

variable {c : HeapConfig} {mode : BarrierMode} {s t : Store}

-- No buffer is retired into a region that the free set still offers.
def Retires (s : Store) : StoreEvent → Prop
  | .retire thread => (s.tlab thread).Spent s.heap
  | _ => True

instance (s : Store) : (e : StoreEvent) → Decidable (s.Retires e)
  | .retire thread => inferInstanceAs (Decidable ((s.tlab thread).Spent s.heap))
  | .register | .bump _ _ | .refill _ _ | .shared _ | .initMark | .mark _ | .unmark _
  | .finalMark | .sweep _ | .skip _ | .cancel | .abort | .finishSweep | .stop _
  | .degenerate _ | .finishStopped => inferInstanceAs (Decidable True)

structure Balanced (c : HeapConfig) (s : Store) : Prop where
  opts_eq : s.heap.opts = c.opts
  measured : s.heap.Measured
  sum_le : s.heap.freeSet.used + s.heap.offeredBytes ≤ s.heap.freeSet.capacity

theorem Balanced.uncounted (hb : s.Balanced c) (hu : s.heap.Uncounted t.heap) : t.Balanced c where
  opts_eq := hu.opts_eq.trans hb.opts_eq
  measured := hu.measured hb.measured
  sum_le := by
    rw [hu.freeSet_eq, hu.offeredBytes_eq]
    exact hb.sum_le

-- A request moves bytes from the offer to `used`.
theorem Balanced.allocate (hb : s.Balanced c) {req : AllocRequest} {result : AllocResult}
    {heap : Heap} (hok : s.heap.allocate req = .ok (result, heap)) (hu : heap.Uncounted t.heap) :
    t.Balanced c := by
  have hpayload : s.heap.opts.regionPayloadSizeBytes = 0 := by
    rw [hb.opts_eq]
    exact c.geometry.payload_eq
  obtain ⟨hm, hcapacity, hopts, hle, _⟩ := Heap.allocate_used hb.measured hpayload hok
  have hsum := hb.sum_le
  refine ⟨hu.opts_eq.trans (hopts.trans hb.opts_eq), hu.measured hm, ?_⟩
  rw [hu.freeSet_eq, hu.offeredBytes_eq, hcapacity]
  omega

theorem Balanced.step {e : StoreEvent} (hb : s.Balanced c) (hretires : s.Retires e)
    (hmutator : e.isMutator = true) (hstep : s.step mode e = some t) : t.Balanced c := by
  obtain ⟨_, hok⟩ := step_eq_some.mp hstep
  cases e with
  | register =>
      obtain rfl := Except.ok.inj hok
      exact hb.uncounted (Heap.Uncounted.refl _)
  | bump thread size =>
      simp only [perform] at hok
      split at hok
      · obtain rfl := Except.ok.inj hok
        exact hb
      · rename_i mem tlab heap halloc
        obtain rfl := Except.ok.inj hok
        obtain ⟨_, _, _, index, _, rfl⟩ := ThreadLocalAllocBuffer.allocate_cases halloc
        exact hb.uncounted ((Heap.setStartBit_uncounted s.heap index _).trans
          (Heap.writeHeader_uncounted _ mem size))
  | refill thread size =>
      simp only [perform, Except.bind_eq_ok] at hok
      obtain ⟨⟨found, heap⟩, hrefill, hok⟩ := hok
      obtain ⟨result, mid, halloc, ⟨_, hnone, rfl⟩ | ⟨mem, _, hsome, rfl⟩⟩ :=
        Heap.refill_cases hrefill
      · subst hnone
        obtain rfl := Except.ok.inj hok
        exact hb.allocate halloc (Heap.Uncounted.refl _)
      · subst hsome
        obtain rfl := Except.ok.inj hok
        exact hb.allocate halloc (((Heap.zeroFill_uncounted mid mem _).trans
          (Heap.setStartBit_uncounted _ _ mem)).trans (Heap.writeHeader_uncounted _ mem size))
  | retire thread =>
      simp only [perform, Except.bind_eq_ok, Except.pure_eq_ok] at hok
      obtain ⟨⟨tlab, heap⟩, hretire, rfl⟩ := hok
      exact hb.uncounted (ThreadLocalAllocBuffer.retire_uncounted hretires hretire)
  | shared size =>
      simp only [perform, Except.bind_eq_ok] at hok
      obtain ⟨⟨found, heap⟩, hshared, hok⟩ := hok
      obtain ⟨result, mid, halloc, hfound, ⟨hnone, rfl⟩ | ⟨mem, hsome, rfl⟩⟩ :=
        Heap.allocateOutsideTlab_cases hshared
      · rw [hnone] at hfound
        subst hfound
        obtain rfl := Except.ok.inj hok
        exact hb.allocate halloc (Heap.Uncounted.refl _)
      · rw [hsome] at hfound
        subst hfound
        obtain rfl := Except.ok.inj hok
        exact hb.allocate halloc ((Heap.markLive_uncounted mid mem).trans
          (Heap.writeHeader_uncounted _ mem size))
  | _ => cases hmutator

-- The counters cannot underflow while no tail is given back to a region that is
-- still in the free set.
theorem used_le_capacity (c : HeapConfig) (mode : BarrierMode) (s : Store)
    (hs : (mutatorMachine c mode).Via Retires s) :
    s.heap.freeSet.used ≤ s.heap.freeSet.capacity ∧ 0 ≤ s.heap.freeSet.available := by
  have hb : s.Balanced c := by
    refine Machine.Via.invariant (P := fun s => s.Balanced c) ?_ ?_ hs
    · rintro s ⟨before, hsized, hrebuild⟩
      obtain ⟨hm, hopts, hused, hcapacity⟩ := hsized.rebuild hrebuild
      exact ⟨hopts, hm, by omega⟩
    · intro u e v hu hretires hstep
      change (if e.isMutator then u.step mode e else none) = some v at hstep
      split at hstep
      · rename_i hmutator
        exact hu.step hretires hmutator hstep
      · cases hstep
  have hsum := hb.sum_le
  unfold RegionFreeSet.available
  omega

theorem newStore_mutator {s : Store} (hs : newStore c = .ok s) : (mutatorMachine c mode).init s := by
  obtain ⟨fs, hrebuild, heq⟩ := newStore_eq c
  rw [heq] at hs
  obtain rfl := Except.ok.inj hs
  exact ⟨newHeap c, RegionFreeSet.newHeap_sized c, hrebuild⟩

theorem used_le_capacity_small : ∃ s, (mutatorMachine .small .satb).Via Retires s ∧
    s.heap.freeSet.used = 4096 ∧ s.heap.freeSet.used ≤ s.heap.freeSet.capacity := by
  have hrun : ((newStore .small).toOption.bind fun s => (mutatorMachine .small .satb).runVia
      Retires s [.register, .refill 0 2048, .retire 0, .refill 0 16]).map (fun s =>
        s.heap.freeSet.used) = some 4096 := by decide +kernel
  obtain ⟨s, hs, hused⟩ := Option.map_eq_some_iff.mp hrun
  obtain ⟨start, hstart, hs⟩ := Option.bind_eq_some_iff.mp hs
  have hinit : (mutatorMachine .small .satb).init start :=
    newStore_mutator (Except.toOption_eq_some.mp hstart)
  have hvia := Machine.via_of_runVia (Machine.Via.init hinit) hs
  exact ⟨s, hvia, hused, (used_le_capacity .small .satb s hvia).1⟩

-- A tail that goes back is used once as part of the buffer and once more when it
-- is handed out again, or given up with its region.
theorem retired_tail_used_twice : ∃ s, (mutatorMachine .small .satb).Reachable s ∧
    s.heap.freeSet.capacity < s.heap.freeSet.used := by
  have hrun : ((newStore .small).toOption.bind fun s => (mutatorMachine .small .satb).run s
      ([.register, .refill 0 16, .retire 0] ++ List.replicate 20 (.shared 2048))).map (fun s =>
        decide (s.heap.freeSet.capacity < s.heap.freeSet.used)) = some true := by decide +kernel
  obtain ⟨s, hs, hover⟩ := Option.map_eq_some_iff.mp hrun
  obtain ⟨start, hstart, hs⟩ := Option.bind_eq_some_iff.mp hs
  have hinit : (mutatorMachine .small .satb).init start :=
    newStore_mutator (Except.toOption_eq_some.mp hstart)
  exact ⟨s, Machine.run_reachable (Machine.Via.init hinit) hs, of_decide_eq_true hover⟩

end Store

end Rsgc.Storage
