import Rsgc.Storage.FreeSet.Accounting

namespace Rsgc.Storage

-- The memory that the process holds for a region.
def HeapRegion.commitedSize (r : HeapRegion) : Nat :=
  if r.typ = .emptyUncommited then 0 else r.size

theorem HeapRegion.commitedSize_congr {r r' : HeapRegion} (htyp : r'.typ = r.typ)
    (hframe : r.SameFrame r') : r'.commitedSize = r.commitedSize := by
  unfold commitedSize HeapRegion.size
  rw [htyp, hframe.limit_eq, hframe.bottom_eq]

theorem HeapRegion.commitedSize_of_ne {r : HeapRegion} (htyp : r.typ ≠ .emptyUncommited) :
    r.commitedSize = r.size := if_neg htyp

theorem HeapRegion.recycle_commitedSize (r : HeapRegion) :
    r.recycle.commitedSize = r.commitedSize := by
  have hsize : r.recycle.size = r.size := rfl
  unfold HeapRegion.commitedSize
  rw [hsize]
  unfold HeapRegion.recycle HeapRegion.isTrash
  cases r.typ <;> rfl

namespace Heap

variable {h h' : Heap}

def commitedBytes (h : Heap) : Nat :=
  ((List.range h.numRegions).map fun i => (h.regions i).commitedSize).sum

-- The step changes the counter by as much as the memory that the regions hold.
structure Commits (h h' : Heap) : Prop where
  numRegions_eq : h'.numRegions = h.numRegions
  balance : h'.commited + h.commitedBytes = h.commited + h'.commitedBytes

theorem Commits.refl (h : Heap) : h.Commits h := ⟨rfl, rfl⟩

theorem Commits.trans {h'' : Heap} (a : h.Commits h') (b : h'.Commits h'') : h.Commits h'' where
  numRegions_eq := b.numRegions_eq.trans a.numRegions_eq
  balance := by
    have hfirst := a.balance
    have hsecond := b.balance
    omega

theorem Commits.of_sizes (hopts : h'.opts = h.opts) (hcommited : h'.commited = h.commited)
    (hsize : ∀ i, i < h.numRegions → (h'.regions i).commitedSize = (h.regions i).commitedSize) :
    h.Commits h' := by
  have hn : h'.numRegions = h.numRegions := by
    unfold numRegions
    rw [hopts]
  have hbytes : h'.commitedBytes = h.commitedBytes := by
    unfold commitedBytes
    rw [hn, List.map_congr_left fun i hi => hsize i (List.mem_range.mp hi)]
  exact ⟨hn, by rw [hcommited, hbytes]⟩

theorem commitedBytes_exchange {i : Nat} (hi : i < h.numRegions) (hopts : h'.opts = h.opts)
    (hothers : ∀ j, j ≠ i → h'.regions j = h.regions j) :
    h'.commitedBytes + (h.regions i).commitedSize =
      h.commitedBytes + (h'.regions i).commitedSize := by
  have hn : h'.numRegions = h.numRegions := by
    unfold numRegions
    rw [hopts]
  unfold commitedBytes
  rw [hn]
  exact sum_range_exchange (f := fun j => (h.regions j).commitedSize)
    (g := fun j => (h'.regions j).commitedSize) hi fun j hj => by simp only [hothers j hj]

theorem Commits.exchange {i : Nat} (hi : i < h.numRegions) (hopts : h'.opts = h.opts)
    (hothers : ∀ j, j ≠ i → h'.regions j = h.regions j)
    (hcommited : h'.commited + (h.regions i).commitedSize =
      h.commited + (h'.regions i).commitedSize) : h.Commits h' := by
  have hsum := commitedBytes_exchange hi hopts hothers
  refine ⟨?_, by omega⟩
  unfold numRegions
  rw [hopts]

theorem Commits.setRegion {i : Nat} {r : HeapRegion}
    (hsize : r.commitedSize = (h.regions i).commitedSize) : h.Commits (h.setRegion i r) := by
  refine Commits.of_sizes rfl rfl fun j _ => ?_
  rw [setRegion_regions, Function.update_apply]
  split
  · rename_i hj
    rw [hj]
    exact hsize
  · rfl

theorem Commits.setFreeSet (h : Heap) (fs : RegionFreeSet) : h.Commits (h.setFreeSet fs) :=
  Commits.of_sizes rfl rfl fun _ _ => rfl

-- A region that is taken for an allocation is committed if it was not before.
theorem Commits.take {i : Nat} {r : HeapRegion} (hi : i < h.numRegions)
    (htyp : r.typ ≠ .emptyUncommited) (hframe : (h.regions i).SameFrame r) :
    h.Commits ((h.commitIfNeeded i).setRegion i r) := by
  have hopts : (h.commitIfNeeded i).opts = h.opts := by
    unfold commitIfNeeded
    split <;> rfl
  refine Commits.exchange hi hopts (fun j hj => ?_) ?_
  · rw [setRegion_regions, Function.update_of_ne hj, commitIfNeeded_regions]
  · have hsize : r.size = (h.regions i).size := by
      unfold HeapRegion.size
      rw [hframe.limit_eq, hframe.bottom_eq]
    rw [setRegion_regions, Function.update_self, HeapRegion.commitedSize_of_ne htyp, hsize]
    change (h.commitIfNeeded i).commited + _ = _
    unfold commitIfNeeded HeapRegion.commitedSize
    split
    · simp only
      omega
    · simp only

theorem Commits.tryRecycleTrashed (h : Heap) (i : Nat) : h.Commits (h.tryRecycleTrashed i) := by
  unfold Heap.tryRecycleTrashed
  split
  · exact Commits.setRegion (HeapRegion.recycle_commitedSize _)
  · exact Commits.refl h

theorem Commits.retireRegion (h : Heap) (i : Nat) : h.Commits (h.retireRegion i) := by
  refine Commits.of_sizes (TouchesOnly.retireRegion h i).opts_eq ?_ fun j _ => ?_
  · unfold Heap.retireRegion
    simp only
    split <;> rfl
  · rw [retireRegion_regions]

theorem Commits.recordAllocation (h : Heap) (i size mem : Nat) (req : AllocRequest) :
    h.Commits (h.recordAllocation i req size mem) := by
  have hused := Commits.setFreeSet h (h.freeSet.increaseUsed size)
  unfold Heap.recordAllocation
  simp only
  split
  · exact hused
  · exact hused.trans (Commits.setRegion rfl)

section Requests

variable {req : AllocRequest} {result : AllocResult}

theorem Commits.tryAllocateIn {i : Nat} (hi : i < h.numRegions)
    (hok : h.tryAllocateIn i req = .ok (result, h')) : h.Commits h' := by
  obtain ⟨size, mid, halloc, hcases⟩ := tryAllocateIn_cases hok
  have hrecycled := Commits.tryRecycleTrashed h i
  have hmid : h.Commits mid := by
    obtain ⟨_, ⟨_, _, rfl⟩ | ⟨_, ⟨r, hr, rfl⟩, _⟩⟩ := allocateIn_cases halloc
    · exact hrecycled
    · obtain ⟨hframe, htyp⟩ := HeapRegion.allocate_sameFrame hr
      have hlt : i < (h.tryRecycleTrashed i).numRegions := by
        rw [hrecycled.numRegions_eq]
        exact hi
      exact hrecycled.trans (Commits.take hlt (by simp [htyp]) hframe)
  rcases hcases with ⟨_, _, rfl⟩ | ⟨mem, _, _, rfl⟩
  · exact hmid.trans (Commits.retireRegion mid i)
  · have hrecord := hmid.trans (Commits.recordAllocation mid i size mem req)
    split
    · exact hrecord.trans (Commits.retireRegion _ i)
    · exact hrecord

theorem Commits.allocateSingleLoop {indices : List Nat} {inNewRegion : Bool} (hs : h.Sound)
    (hok : h.allocateSingleLoop req inNewRegion indices = .ok (result, h')) : h.Commits h' := by
  induction indices generalizing h inNewRegion with
  | nil =>
      simp only [Heap.allocateSingleLoop, Except.pure_eq_ok, Prod.mk.injEq] at hok
      obtain ⟨_, rfl⟩ := hok
      exact Commits.refl _
  | cons i rest ih =>
      unfold Heap.allocateSingleLoop at hok
      by_cases hbit : h.freeSet.isMutatorFree i = true
      · rw [if_pos hbit] at hok
        simp only [Except.bind_eq_ok] at hok
        obtain ⟨⟨tried, mid⟩, htry, hrest⟩ := hok
        have hmid := Commits.tryAllocateIn (hs.offered i hbit).lt htry
        cases hmem : tried.mem with
        | some mem =>
            simp only [hmem, Except.pure_eq_ok, Prod.mk.injEq] at hrest
            obtain ⟨_, rfl⟩ := hrest
            exact hmid
        | none =>
            simp only [hmem] at hrest
            exact hmid.trans (ih (hs.tryAllocateIn hbit htry) hrest)
      · rw [if_neg hbit] at hok
        exact ih hs hok

theorem Commits.claimHumongous {i : Nat} (h : Heap) (beg : Nat) (hi : i < h.numRegions) :
    h.Commits (h.claimHumongous beg i) := by
  have hrecycled := Commits.tryRecycleTrashed h i
  have hlt : i < (h.tryRecycleTrashed i).numRegions := by
    rw [hrecycled.numRegions_eq]
    exact hi
  have htake := hrecycled.trans (Commits.take (r := { (if i = beg then
      ((h.tryRecycleTrashed i).regions i).makeHumongousStart
      else ((h.tryRecycleTrashed i).regions i).makeHumongousCont) with
        used := (h.tryRecycleTrashed i).opts.regionSizeBytes }) hlt
    (by split <;> simp [HeapRegion.makeHumongousStart, HeapRegion.makeHumongousCont])
    (by split <;> exact ⟨rfl, rfl, rfl, rfl⟩))
  exact htake.trans (Commits.setFreeSet _ _)

theorem Commits.claimRun {beg num : Nat} (h : Heap) (hlt : ∀ j, beg ≤ j → j < beg + num →
    j < h.numRegions) : h.Commits (h.claimRun beg num) := by
  have hloop : ∀ (indices : List Nat) (g : Heap), (∀ j ∈ indices, j < g.numRegions) →
      g.Commits (indices.foldl (fun h i => h.claimHumongous beg i) g) := by
    intro indices
    induction indices with
    | nil => exact fun g _ => Commits.refl g
    | cons i rest ih =>
        intro g hlt
        have hfirst := Commits.claimHumongous g beg (hlt i List.mem_cons_self)
        refine hfirst.trans (ih (g.claimHumongous beg i) fun j hj => ?_)
        rw [hfirst.numRegions_eq]
        exact hlt j (List.mem_cons_of_mem i hj)
  refine hloop (List.range' beg num) h fun j hj => ?_
  obtain ⟨hle, hj⟩ := List.mem_range'_1.mp hj
  exact hlt j hle hj

theorem Commits.finishContiguous (h : Heap) (req : AllocRequest) (beg num : Nat) :
    h.Commits (h.finishContiguous req beg num).2 := by
  obtain ⟨hopts, _, hregions, _⟩ := finishContiguous_eq h req beg num
  refine Commits.of_sizes hopts ?_ fun i _ => by rw [hregions]
  unfold Heap.finishContiguous
  simp only
  split <;> split <;> rfl

-- Every request commits the regions it takes and no other.
theorem Commits.allocate (hs : h.Sound) (hok : h.allocate req = .ok (result, h')) :
    h.Commits h' := by
  unfold Heap.allocate at hok
  split at hok
  · rw [Except.pure_eq_ok] at hok
    rcases allocateContiguous_cases h req with heq | ⟨beg, hfound, heq⟩
    · rw [hok] at heq
      obtain ⟨_, rfl⟩ := Prod.mk.inj heq
      exact Commits.refl _
    · obtain ⟨_, hrun⟩ := findRun_spec (Nat.le_refl _) (fun j hl hr => by omega) hfound
      have hclaimed := Commits.claimRun h fun j hl hr => (hs.offered j (hrun j hl hr).2.1).lt
      have hlast : ((h.claimRun beg (h.opts.requiredRegions req.size)).finishContiguous req beg
          (h.opts.requiredRegions req.size)).2 = h' := by rw [← heq, hok]
      rw [← hlast]
      exact hclaimed.trans (Commits.finishContiguous _ req beg _)
  · exact Commits.allocateSingleLoop hs hok

end Requests

end Heap

end Rsgc.Storage
