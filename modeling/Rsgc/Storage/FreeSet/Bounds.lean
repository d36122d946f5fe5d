import Rsgc.Storage.FreeSet.Steps

namespace Rsgc.Storage

namespace Heap

variable {h h' : Heap}

-- What a set bit promises about its region.
structure Offered (h : Heap) (i : Nat) : Prop where
  lt : i < h.numRegions
  allowed : (h.regions i).isAllocAllowed = true ∨ (h.regions i).isTrash = true
  swept : (h.regions i).toSweep = false
  capacity : h.allocCapacity i ≠ 0

structure Sound (h : Heap) : Prop where
  within : h.freeSet.Within
  offered : ∀ i, h.freeSet.isMutatorFree i = true → h.Offered i

theorem Sound.restrict (hs : h.Sound) (hwithin : h'.freeSet.Within)
    (hbits : ∀ i, h'.freeSet.isMutatorFree i = true → h.freeSet.isMutatorFree i = true)
    (hoffered : ∀ i, h'.freeSet.isMutatorFree i = true → h.Offered i → h'.Offered i) :
    h'.Sound where
  within := hwithin
  offered := fun i hi => hoffered i hi (hs.offered i (hbits i hi))

theorem Offered.congr {i : Nat} (ho : h.Offered i) (hopts : h'.opts = h.opts)
    (hregion : h'.regions i = h.regions i) : h'.Offered i where
  lt := by
    unfold numRegions
    rw [hopts]
    exact ho.lt
  allowed := by
    rw [hregion]
    exact ho.allowed
  swept := by
    rw [hregion]
    exact ho.swept
  capacity := by
    unfold allocCapacity
    rw [hregion, hopts]
    exact ho.capacity

-- A step that concerns region `i` alone only has to answer for the bit of `i`.
theorem Sound.touch {i : Nat} (hs : h.Sound) (ht : h.TouchesOnly h' i)
    (hoffered : h'.freeSet.isMutatorFree i = true → h'.Offered i) : h'.Sound where
  within := ht.within hs.within
  offered := by
    intro j hj
    by_cases heq : j = i
    · subst heq
      exact hoffered hj
    · obtain ⟨hregion, hbit⟩ := ht.others j heq
      rw [hbit] at hj
      exact (hs.offered j hj).congr ht.opts_eq hregion

-- The step changes regions whose bit is set, and sets no bit.
structure TouchesFree (h h' : Heap) : Prop where
  opts_eq : h'.opts = h.opts
  memStart_eq : h'.memStart = h.memStart
  max_eq : h'.freeSet.max = h.freeSet.max
  capacity_eq : h'.freeSet.capacity = h.freeSet.capacity
  others : ∀ j, h.freeSet.isMutatorFree j = false →
    h'.regions j = h.regions j ∧ h'.freeSet.isMutatorFree j = false
  frame : ∀ j, (h.regions j).SameFrame (h'.regions j)

theorem TouchesFree.refl (h : Heap) : h.TouchesFree h where
  opts_eq := rfl
  memStart_eq := rfl
  max_eq := rfl
  capacity_eq := rfl
  others := fun _ hj => ⟨rfl, hj⟩
  frame := fun _ => HeapRegion.SameFrame.refl _

theorem TouchesFree.trans {h'' : Heap} (a : h.TouchesFree h') (b : h'.TouchesFree h'') :
    h.TouchesFree h'' where
  opts_eq := b.opts_eq.trans a.opts_eq
  memStart_eq := b.memStart_eq.trans a.memStart_eq
  max_eq := b.max_eq.trans a.max_eq
  capacity_eq := b.capacity_eq.trans a.capacity_eq
  others := by
    intro j hj
    obtain ⟨hr, hb⟩ := a.others j hj
    obtain ⟨hr', hb'⟩ := b.others j hb
    exact ⟨hr'.trans hr, hb'⟩
  frame := fun j => (a.frame j).trans (b.frame j)

theorem TouchesOnly.touchesFree {i : Nat} (ht : h.TouchesOnly h' i)
    (hbit : h.freeSet.isMutatorFree i = true) : h.TouchesFree h' where
  opts_eq := ht.opts_eq
  memStart_eq := ht.memStart_eq
  max_eq := ht.max_eq
  capacity_eq := ht.capacity_eq
  others := by
    intro j hj
    have hne : j ≠ i := by
      rintro rfl
      simp [hbit] at hj
    obtain ⟨hr, hb⟩ := ht.others j hne
    exact ⟨hr, hb.trans hj⟩
  frame := by
    intro j
    by_cases heq : j = i
    · subst heq
      exact ht.frame
    · rw [(ht.others j heq).1]
      exact HeapRegion.SameFrame.refl _

section Single

variable {req : AllocRequest} {result : AllocResult}

theorem tryAllocateIn_regular {i mem : Nat} (hok : h.tryAllocateIn i req = .ok (result, h'))
    (hmem : result.mem = some mem) : (h'.regions i).typ = .regular := by
  obtain ⟨size, mid, halloc, ⟨hnone, _⟩ | ⟨addr, _, _, rfl⟩⟩ := tryAllocateIn_cases hok
  · simp [hnone] at hmem
  · obtain ⟨_, ⟨_, hnone, _⟩ | ⟨_, ⟨r, hr, rfl⟩, _⟩⟩ := allocateIn_cases halloc
    · simp [hnone] at hmem
    · obtain ⟨_, htyp⟩ := HeapRegion.allocate_sameFrame hr
      have hrecord : ∀ g : Heap, (g.regions i).typ = .regular →
          ((g.recordAllocation i req size addr).regions i).typ = .regular := by
        intro g hg
        unfold recordAllocation
        simp only
        split <;> simpa [HeapRegion.setStartBit] using hg
      split
      · rw [retireRegion_regions]
        exact hrecord _ (by simpa using htyp)
      · exact hrecord _ (by simpa using htyp)

-- A region keeps its bit only while it can serve more requests.
theorem tryAllocateIn_capacity {i : Nat} (hok : h.tryAllocateIn i req = .ok (result, h'))
    (hbit : h'.freeSet.isMutatorFree i = true) :
    (∃ mem, result.mem = some mem) ∧ h'.allocCapacity i ≠ 0 := by
  obtain ⟨size, mid, halloc, ⟨_, _, rfl⟩ | ⟨addr, hmem, _, rfl⟩⟩ := tryAllocateIn_cases hok
  · rw [retireRegion_isMutatorFree, if_pos rfl] at hbit
    cases hbit
  · refine ⟨⟨addr, hmem⟩, ?_⟩
    by_cases hzero : (mid.recordAllocation i req size addr).allocCapacity i = 0
    · rw [if_pos hzero, retireRegion_isMutatorFree, if_pos rfl] at hbit
      cases hbit
    · rw [if_neg hzero]
      exact hzero

theorem Sound.tryAllocateIn {i : Nat} (hs : h.Sound) (hbit : h.freeSet.isMutatorFree i = true)
    (hok : h.tryAllocateIn i req = .ok (result, h')) : h'.Sound := by
  have ht := TouchesOnly.tryAllocateIn hok
  have ho := hs.offered i hbit
  refine hs.touch ht fun hbit' => ?_
  obtain ⟨⟨mem, hmem⟩, hcapacity⟩ := tryAllocateIn_capacity hok hbit'
  have hregular := tryAllocateIn_regular hok hmem
  refine ⟨?_, Or.inl ?_, ?_, hcapacity⟩
  · unfold numRegions
    rw [ht.opts_eq]
    exact ho.lt
  · simp [HeapRegion.isAllocAllowed, hregular]
  · rw [ht.frame.toSweep_eq]
    exact ho.swept

theorem allocateSingleLoop_sound {indices : List Nat} {inNewRegion : Bool} (hs : h.Sound)
    (hok : h.allocateSingleLoop req inNewRegion indices = .ok (result, h')) :
    h'.Sound ∧ h.TouchesFree h' := by
  induction indices generalizing h inNewRegion with
  | nil =>
      simp only [allocateSingleLoop, Except.pure_eq_ok, Prod.mk.injEq] at hok
      obtain ⟨_, rfl⟩ := hok
      exact ⟨hs, TouchesFree.refl _⟩
  | cons i rest ih =>
      unfold allocateSingleLoop at hok
      by_cases hbit : h.freeSet.isMutatorFree i = true
      · rw [if_pos hbit] at hok
        simp only [Except.bind_eq_ok] at hok
        obtain ⟨⟨tried, mid⟩, htry, hrest⟩ := hok
        have hmid := hs.tryAllocateIn hbit htry
        have htouch := (TouchesOnly.tryAllocateIn htry).touchesFree hbit
        cases hmem : tried.mem with
        | some mem =>
            simp only [hmem, Except.pure_eq_ok, Prod.mk.injEq] at hrest
            obtain ⟨_, rfl⟩ := hrest
            exact ⟨hmid, htouch⟩
        | none =>
            simp only [hmem] at hrest
            obtain ⟨hsound, hfree⟩ := ih hmid hrest
            exact ⟨hsound, htouch.trans hfree⟩
      · rw [if_neg hbit] at hok
        exact ih hs hok

end Single

section Contiguous

-- The run that is found is free, and lies below `max`.
theorem findRun_spec {num fuel beg last found : Nat} (hle : beg ≤ last)
    (hrun : ∀ j, beg ≤ j → j < last →
      j < h.freeSet.max ∧ h.freeSet.isMutatorFree j = true ∧ h.canAllocateFrom j = true)
    (hok : h.findRun num fuel beg last = some found) :
    0 < num ∧ ∀ j, found ≤ j → j < found + num →
      j < h.freeSet.max ∧ h.freeSet.isMutatorFree j = true ∧ h.canAllocateFrom j = true := by
  induction fuel generalizing beg last with
  | zero => simp [findRun] at hok
  | succ fuel ih =>
      unfold findRun at hok
      by_cases hmax : h.freeSet.max ≤ last
      · rw [if_pos hmax] at hok
        cases hok
      · rw [if_neg hmax] at hok
        by_cases hbad : h.freeSet.isMutatorFree last = false ∨ h.canAllocateFrom last = false
        · rw [if_pos hbad] at hok
          exact ih (Nat.le_refl _) (fun j hl hr => by omega) hok
        · rw [if_neg hbad] at hok
          have hlast : h.freeSet.isMutatorFree last = true ∧ h.canAllocateFrom last = true := by
            simpa using hbad
          have hnext : ∀ j, beg ≤ j → j < last + 1 →
              j < h.freeSet.max ∧ h.freeSet.isMutatorFree j = true ∧
                h.canAllocateFrom j = true := by
            intro j hl hr
            rcases Nat.lt_succ_iff_lt_or_eq.mp hr with hr | rfl
            · exact hrun j hl hr
            · exact ⟨by omega, hlast⟩
          by_cases hnum : last - beg + 1 = num
          · rw [if_pos hnum, Option.some_inj] at hok
            subst hok
            exact ⟨by omega, fun j hl hr => hnext j hl (by omega)⟩
          · rw [if_neg hnum] at hok
            exact ih (by omega) hnext hok

theorem commitIfNeeded_regions (h : Heap) (i : Nat) : (h.commitIfNeeded i).regions = h.regions := by
  unfold commitIfNeeded
  split <;> rfl

theorem commitIfNeeded_freeSet (h : Heap) (i : Nat) : (h.commitIfNeeded i).freeSet = h.freeSet := by
  unfold commitIfNeeded
  split <;> rfl

theorem claimHumongous_touchesOnly (h : Heap) (beg i : Nat) :
    h.TouchesOnly (h.claimHumongous beg i) i := by
  have hrecycle := TouchesOnly.tryRecycleTrashed h i
  have hcommit := hrecycle.trans (TouchesOnly.commitIfNeeded (h.tryRecycleTrashed i) i i)
  have hclaim : h.TouchesOnly (((h.tryRecycleTrashed i).commitIfNeeded i).setRegion i
      { (if i = beg then ((h.tryRecycleTrashed i).regions i).makeHumongousStart
          else ((h.tryRecycleTrashed i).regions i).makeHumongousCont) with
        used := (h.tryRecycleTrashed i).opts.regionSizeBytes }) i := by
    refine hcommit.trans (TouchesOnly.setRegion _ i ?_)
    rw [commitIfNeeded_regions]
    split <;> exact ⟨rfl, rfl, rfl, rfl⟩
  unfold claimHumongous
  exact hclaim.trans
    { opts_eq := rfl
      memStart_eq := rfl
      max_eq := rfl
      capacity_eq := rfl
      others := fun j hj => ⟨rfl, by
        simp [RegionFreeSet.isMutatorFree_setBit, hj]⟩
      frame := HeapRegion.SameFrame.refl _
      bit := by simp [RegionFreeSet.isMutatorFree_setBit]
      within := fun hwithin => hwithin.clearBit i }

theorem claimHumongous_isMutatorFree (h : Heap) (beg i : Nat) :
    (h.claimHumongous beg i).freeSet.isMutatorFree i = false := by
  simp [claimHumongous, RegionFreeSet.isMutatorFree_setBit]

theorem claimRun_sound {beg num : Nat} (hs : h.Sound)
    (hbits : ∀ j, beg ≤ j → j < beg + num → h.freeSet.isMutatorFree j = true) :
    (h.claimRun beg num).Sound ∧ h.TouchesFree (h.claimRun beg num) := by
  have hloop : ∀ (indices : List Nat) (g : Heap), g.Sound → indices.Nodup →
      (∀ j ∈ indices, g.freeSet.isMutatorFree j = true) →
      (indices.foldl (fun h i => h.claimHumongous beg i) g).Sound ∧
        g.TouchesFree (indices.foldl (fun h i => h.claimHumongous beg i) g) := by
    intro indices
    induction indices with
    | nil => exact fun g hg _ _ => ⟨hg, TouchesFree.refl g⟩
    | cons i rest ih =>
        intro g hg hnodup hfree
        obtain ⟨hnot, hrest⟩ := List.nodup_cons.mp hnodup
        have ht := claimHumongous_touchesOnly g beg i
        have hclaimed : (g.claimHumongous beg i).Sound := by
          refine hg.touch ht fun hbit => ?_
          rw [claimHumongous_isMutatorFree] at hbit
          cases hbit
        have hbits' : ∀ j ∈ rest, (g.claimHumongous beg i).freeSet.isMutatorFree j = true := by
          intro j hj
          have hne : j ≠ i := fun heq => hnot (heq ▸ hj)
          rw [(ht.others j hne).2]
          exact hfree j (List.mem_cons_of_mem i hj)
        obtain ⟨hsound, htouch⟩ := ih (g.claimHumongous beg i) hclaimed hrest hbits'
        exact ⟨hsound, (ht.touchesFree (hfree i List.mem_cons_self)).trans htouch⟩
  refine hloop (List.range' beg num) h hs List.nodup_range' fun j hj => ?_
  obtain ⟨hl, hr⟩ := List.mem_range'_1.mp hj
  exact hbits j hl hr

theorem finishContiguous_eq (h : Heap) (req : AllocRequest) (beg num : Nat) :
    (h.finishContiguous req beg num).2.opts = h.opts ∧
      (h.finishContiguous req beg num).2.memStart = h.memStart ∧
      (h.finishContiguous req beg num).2.regions = h.regions ∧
      (h.finishContiguous req beg num).2.freeSet.max = h.freeSet.max ∧
      (h.finishContiguous req beg num).2.freeSet.capacity = h.freeSet.capacity ∧
      (h.finishContiguous req beg num).2.freeSet.used =
        h.freeSet.used + h.opts.regionPayloadSizeBytes * num ∧
      (∀ j, (h.finishContiguous req beg num).2.freeSet.isMutatorFree j =
        h.freeSet.isMutatorFree j) ∧
      (h.freeSet.Within → (h.finishContiguous req beg num).2.freeSet.Within) := by
  unfold finishContiguous
  simp only
  split <;> split <;> refine ⟨rfl, rfl, rfl, rfl, rfl, rfl, fun _ => rfl, fun hwithin => ?_⟩
  · exact hwithin.adjustBounds
  · exact hwithin.adjustBounds
  · exact hwithin
  · exact hwithin

theorem finishContiguous_result (h : Heap) (req : AllocRequest) (beg num : Nat) :
    (h.finishContiguous req beg num).1 =
      ⟨some (h.regions beg).bottom, req.setActualSize req.size, true⟩ := by
  unfold finishContiguous
  simp only
  split <;> split <;> rfl

theorem finishContiguous_sound (req : AllocRequest) {beg num : Nat} (hs : h.Sound) :
    (h.finishContiguous req beg num).2.Sound ∧
      h.TouchesFree (h.finishContiguous req beg num).2 := by
  obtain ⟨hopts, hmem, hregions, hmax, hcapacity, _, hbits, hwithin⟩ :=
    finishContiguous_eq h req beg num
  refine ⟨hs.restrict (hwithin hs.within) ?_ ?_, hopts, hmem, hmax, hcapacity, ?_, ?_⟩
  · intro i hi
    rw [hbits] at hi
    exact hi
  · intro i _ ho
    exact ho.congr hopts (by rw [hregions])
  · intro j hj
    rw [hregions, hbits]
    exact ⟨rfl, hj⟩
  · intro j
    rw [hregions]
    exact HeapRegion.SameFrame.refl _

-- A contiguous request fails without a change, or claims a run of free regions.
theorem allocateContiguous_cases (h : Heap) (req : AllocRequest) :
    h.allocateContiguous req = (⟨none, req, true⟩, h) ∨
      ∃ beg, h.findRun (h.opts.requiredRegions req.size) (h.freeSet.max + 1)
          h.freeSet.mutatorLeftmost h.freeSet.mutatorLeftmost = some beg ∧
        h.allocateContiguous req = (h.claimRun beg (h.opts.requiredRegions req.size)).finishContiguous
          req beg (h.opts.requiredRegions req.size) := by
  unfold allocateContiguous
  simp only
  split
  · exact Or.inl rfl
  · split
    · exact Or.inl rfl
    · rename_i beg hfound
      exact Or.inr ⟨beg, hfound, rfl⟩

theorem allocateContiguous_sound (req : AllocRequest) (hs : h.Sound) :
    (h.allocateContiguous req).2.Sound ∧ h.TouchesFree (h.allocateContiguous req).2 := by
  rcases allocateContiguous_cases h req with heq | ⟨beg, hfound, heq⟩
  · rw [heq]
    exact ⟨hs, TouchesFree.refl h⟩
  · rw [heq]
    obtain ⟨_, hrun⟩ := findRun_spec (Nat.le_refl _) (fun j hl hr => by omega) hfound
    obtain ⟨hclaimed, htouch⟩ := claimRun_sound hs fun j hl hr => (hrun j hl hr).2.1
    obtain ⟨hfinished, htouch'⟩ := finishContiguous_sound req hclaimed
    exact ⟨hfinished, htouch.trans htouch'⟩

end Contiguous

theorem allocate_sound {req : AllocRequest} {result : AllocResult} (hs : h.Sound)
    (hok : h.allocate req = .ok (result, h')) : h'.Sound ∧ h.TouchesFree h' := by
  unfold allocate at hok
  split at hok
  · rw [Except.pure_eq_ok] at hok
    have hcontiguous := allocateContiguous_sound req hs
    rw [hok] at hcontiguous
    exact hcontiguous
  · exact allocateSingleLoop_sound hs hok

section Panics

-- The panics that come from the free list of a region.
def FreeListPanic (p : Panic) : Prop :=
  p = .emptyBlock ∨ p = .bucketOutOfBounds ∨ p = .elasticAllocation

theorem addFree_error {r : HeapRegion} {addr size : Nat} {p : Panic}
    (h : r.addFree addr size = .error p) : FreeListPanic p := by
  simp only [HeapRegion.addFree, Except.bind_eq_error] at h
  rcases h with hadd | ⟨_, _, hpure⟩
  · have hraw : r.freeList.1.add addr size = .error p := by
      unfold FreeList.add at hadd
      split at hadd
      · cases hadd
      · rename_i hraw
        cases hadd
        exact hraw
    simp only [RawFreeList.add, Except.bind_eq_error, Except.ensure_eq_error] at hraw
    rcases hraw with ⟨_, rfl⟩ | ⟨_, _, hrest⟩
    · exact Or.inl rfl
    · split at hrest
      · cases hrest
      · simp only [Except.bind_eq_error, Except.ensure_eq_error] at hrest
        rcases hrest with ⟨_, rfl⟩ | ⟨_, _, hpure⟩
        · exact Or.inr (Or.inl rfl)
        · cases hpure
  · cases hpure

theorem region_allocate_error {r : HeapRegion} {size : Nat} {p : Panic}
    (h : r.allocate size = .error p) : FreeListPanic p := by
  simp only [HeapRegion.allocate, Except.bind_eq_error] at h
  rcases h with hregular | ⟨base, _, hfound⟩
  · unfold HeapRegion.makeRegularAllocation at hregular
    split at hregular
    · simp only [Except.bind_eq_error] at hregular
      rcases hregular with hadd | ⟨_, _, hpure⟩
      · exact addFree_error hadd
      · cases hpure
    · cases hregular
  · split at hfound
    · cases hfound
    · simp only [HeapRegion.splitEntry] at hfound
      split at hfound
      · simp only [Except.bind_eq_error] at hfound
        rcases hfound with hadd | ⟨_, _, hpure⟩
        · exact addFree_error hadd
        · cases hpure
      · cases hfound

theorem allocateIn_error {i : Nat} {req : AllocRequest} {p : Panic}
    (hok : h.allocateIn i req = .error p) : FreeListPanic p := by
  have hregion : ∀ size, h.regionAllocate i size = .error p → FreeListPanic p := by
    intro size hallocate
    simp only [regionAllocate, Except.bind_eq_error] at hallocate
    rcases hallocate with hallocate | ⟨_, _, hpure⟩
    · exact region_allocate_error hallocate
    · cases hpure
  unfold allocateIn at hok
  split at hok
  · simp only [elasticAllocate] at hok
    split at hok
    · simp only [Except.bind_eq_error, Except.ensure_eq_error] at hok
      rcases hok with hallocate | ⟨_, _, ⟨_, rfl⟩ | ⟨_, _, hpure⟩⟩
      · exact hregion _ hallocate
      · exact Or.inr (Or.inr rfl)
      · cases hpure
    · cases hok
  · simp only [Except.bind_eq_error] at hok
    rcases hok with hallocate | ⟨_, _, hpure⟩
    · exact hregion _ hallocate
    · cases hpure

-- In a region whose bit is set the two assertions at the head hold.
theorem tryAllocateIn_error {i : Nat} {req : AllocRequest} {p : Panic} (ho : h.Offered i)
    (hok : h.tryAllocateIn i req = .error p) : FreeListPanic p := by
  simp only [tryAllocateIn, Except.bind_eq_error, Except.ensure_eq_error] at hok
  rcases hok with ⟨hsweep, _⟩ | ⟨_, _, ⟨hfull, _⟩ | ⟨_, _, hallocate | ⟨result, _, hrest⟩⟩⟩
  · exact absurd ho.swept hsweep
  · exact absurd ho.capacity hfull
  · exact allocateIn_error hallocate
  · split at hrest <;> cases hrest

theorem allocate_error {req : AllocRequest} {p : Panic} (hs : h.Sound)
    (hok : h.allocate req = .error p) : FreeListPanic p := by
  have hloop : ∀ (indices : List Nat) (g : Heap) (inNewRegion : Bool), g.Sound →
      g.allocateSingleLoop req inNewRegion indices = .error p → FreeListPanic p := by
    intro indices
    induction indices with
    | nil =>
        intro g _ _ hg
        cases hg
    | cons i rest ih =>
        intro g inNewRegion hsound hg
        unfold allocateSingleLoop at hg
        by_cases hbit : g.freeSet.isMutatorFree i = true
        · rw [if_pos hbit] at hg
          simp only [Except.bind_eq_error] at hg
          rcases hg with htry | ⟨⟨tried, mid⟩, htry, hrest⟩
          · exact tryAllocateIn_error (hsound.offered i hbit) htry
          · split at hrest
            · cases hrest
            · exact ih mid tried.inNewRegion (hsound.tryAllocateIn hbit htry) hrest
        · rw [if_neg hbit] at hg
          exact ih g inNewRegion hsound hg
  unfold allocate at hok
  split at hok
  · cases hok
  · exact hloop _ h false hs hok

end Panics

section Rebuild

def Eligible (h : Heap) (i : Nat) : Prop :=
  ((h.regions i).isAllocAllowed = true ∨ (h.regions i).isTrash = true) ∧ h.allocCapacity i ≠ 0

instance (h : Heap) (i : Nat) : Decidable (h.Eligible i) := by
  unfold Eligible
  infer_instance

-- After `clear` nothing is used, so the assertion of the loop holds throughout.
theorem rebuildLoop_eq (h : Heap) (indices : List Nat) (fs : RegionFreeSet) (hused : fs.used = 0) :
    ∃ fs', h.rebuildLoop indices fs = .ok fs' ∧ fs'.used = 0 ∧ fs'.max = fs.max ∧
      (∀ j, fs'.isMutatorFree j = true ↔
        fs.isMutatorFree j = true ∨ (j ∈ indices ∧ h.Eligible j)) ∧
      fs'.capacity = fs.capacity +
        (indices.map fun j => if h.Eligible j then h.allocCapacity j else 0).sum := by
  induction indices generalizing fs with
  | nil => exact ⟨fs, rfl, hused, rfl, by simp, by simp⟩
  | cons i rest ih =>
      by_cases heligible : h.Eligible i
      · have hregion : h.rebuildRegion i fs = .ok (RegionFreeSet.setBit
            { fs with capacity := fs.capacity + h.allocCapacity i } i true) := by
          unfold rebuildRegion
          rw [if_pos heligible.1, if_neg heligible.2]
          have hle : fs.used ≤ fs.capacity + h.allocCapacity i := by omega
          simp [ensure, hle, bind, Except.bind, pure, Except.pure]
        obtain ⟨fs', hloop, hzero, hmax, hbits, hcapacity⟩ := ih (RegionFreeSet.setBit
          { fs with capacity := fs.capacity + h.allocCapacity i } i true) hused
        refine ⟨fs', ?_, hzero, hmax, ?_, ?_⟩
        · unfold rebuildLoop
          rw [hregion]
          exact hloop
        · intro j
          rw [hbits, RegionFreeSet.isMutatorFree_setBit]
          by_cases hj : j = i
          · subst hj
            simp [heligible]
          · simp [hj, RegionFreeSet.isMutatorFree]
        · rw [hcapacity, List.map_cons, List.sum_cons, if_pos heligible]
          simp only [RegionFreeSet.setBit]
          omega
      · have hregion : h.rebuildRegion i fs = .ok fs := by
          unfold rebuildRegion
          split
          · rename_i hallowed
            rw [if_pos (by simpa [Eligible, hallowed] using heligible)]
            rfl
          · rfl
        obtain ⟨fs', hloop, hzero, hmax, hbits, hcapacity⟩ := ih fs hused
        refine ⟨fs', ?_, hzero, hmax, ?_, ?_⟩
        · unfold rebuildLoop
          rw [hregion]
          exact hloop
        · intro j
          rw [hbits]
          by_cases hj : j = i
          · subst hj
            simp [heligible]
          · simp [hj]
        · rw [hcapacity, List.map_cons, List.sum_cons, if_neg heligible]
          omega

theorem rebuild_eq (h : Heap) :
    ∃ fs, h.rebuild = .ok (h.setFreeSet fs) ∧ fs.used = 0 ∧ fs.max = h.freeSet.max ∧
      (∀ j, fs.isMutatorFree j = true ↔ j < h.numRegions ∧ h.Eligible j) ∧
      fs.capacity = ((List.range h.numRegions).map
        fun j => if h.Eligible j then h.allocCapacity j else 0).sum ∧
      (h.numRegions ≤ h.freeSet.max → fs.Within) := by
  obtain ⟨fs, hloop, hzero, hmax, hbits, hcapacity⟩ :=
    h.rebuildLoop_eq (List.range h.numRegions) h.freeSet.clear rfl
  have hbits' : ∀ j, fs.isMutatorFree j = true ↔ j < h.numRegions ∧ h.Eligible j := by
    intro j
    rw [hbits, List.mem_range]
    simp [RegionFreeSet.clear, RegionFreeSet.isMutatorFree]
  refine ⟨fs.recomputeBounds, ?_, hzero, hmax, hbits', ?_, fun hle => ?_⟩
  · unfold rebuild
    rw [hloop]
    rfl
  · change fs.capacity = _
    rw [hcapacity]
    simp [RegionFreeSet.clear]
  · apply RegionFreeSet.Within.recomputeBounds
    intro i hi
    obtain ⟨hlt, _⟩ := (hbits' i).mp hi
    have hsame : fs.max = h.freeSet.max := hmax
    omega

-- A rebuild is sound once no region waits to be swept.
theorem rebuild_sound (hmax : h.numRegions ≤ h.freeSet.max)
    (hswept : ∀ i, i < h.numRegions → (h.regions i).toSweep = false)
    (hok : h.rebuild = .ok h') : h'.Sound := by
  obtain ⟨fs, heq, _, _, hbits, _, hwithin⟩ := h.rebuild_eq
  obtain rfl : h.setFreeSet fs = h' := by
    rw [heq] at hok
    exact Except.ok.inj hok
  refine ⟨hwithin hmax, fun i hi => ?_⟩
  obtain ⟨hlt, hallowed, hcapacity⟩ := (hbits i).mp hi
  exact ⟨hlt, hallowed, hswept i hlt, hcapacity⟩

end Rebuild

end Heap

end Rsgc.Storage
