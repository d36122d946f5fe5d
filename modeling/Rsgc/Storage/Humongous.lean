import Mathlib.Data.List.Perm.Subperm
import Rsgc.Storage.Layout

namespace Rsgc.Storage

namespace Heap

variable {h h' : Heap}

-- `num` consecutive regions that a contiguous request can take.
def FreeRun (h : Heap) (beg num : Nat) : Prop :=
  ∀ j, beg ≤ j → j < beg + num →
    j < h.numRegions ∧ h.freeSet.isMutatorFree j = true ∧ h.canAllocateFrom j = true

instance (h : Heap) (beg num : Nat) : Decidable (h.FreeRun beg num) :=
  decidable_of_iff (∀ j ∈ List.range' beg num,
      j < h.numRegions ∧ h.freeSet.isMutatorFree j = true ∧ h.canAllocateFrom j = true)
    ⟨fun hrun j hl hr => hrun j (List.mem_range'_1.mpr ⟨hl, hr⟩),
      fun hrun j hj => hrun j (List.mem_range'_1.mp hj).1 (List.mem_range'_1.mp hj).2⟩

-- What the search relies on: the bounds enclose the free bits, and `max` is the
-- length of the region table.
structure Searchable (h : Heap) : Prop where
  geometry : h.opts.Geometry
  max_eq : h.freeSet.max = h.numRegions
  within : h.freeSet.Within

section Search

-- A region that cannot be taken excludes every run through it.
theorem FreeRun.of_mem {b num j : Nat} (hrun : h.FreeRun b num) (hl : b ≤ j) (hr : j < b + num) :
    j < h.numRegions ∧ ¬(h.freeSet.isMutatorFree j = false ∨ h.canAllocateFrom j = false) := by
  obtain ⟨hlt, hfree, hcan⟩ := hrun j hl hr
  refine ⟨hlt, ?_⟩
  rintro (hbit | hstate)
  · rw [hfree] at hbit
    cases hbit
  · rw [hcan] at hstate
    cases hstate

-- The window `[beg, last)` is shorter than a run, so a region at `last` that
-- does not fit rules out all the starts that are skipped.
theorem findRun_first {num fuel beg last : Nat} (hmax : h.freeSet.max = h.numRegions)
    (hle : beg ≤ last) (hshort : last < beg + num) (hfuel : h.numRegions < fuel + last) :
    match h.findRun num fuel beg last with
    | some found => ∀ b, beg ≤ b → b < found → ¬h.FreeRun b num
    | none => ∀ b, beg ≤ b → ¬h.FreeRun b num := by
  induction fuel generalizing beg last with
  | zero =>
      intro b hb hrun
      have hlast := hrun.of_mem (j := max b last) (by omega) (by omega)
      omega
  | succ fuel ih =>
      unfold findRun
      by_cases hend : h.freeSet.max ≤ last
      · rw [if_pos hend]
        intro b hb hrun
        have hlast := hrun.of_mem (j := max b last) (by omega) (by omega)
        omega
      · rw [if_neg hend]
        by_cases hbad : h.freeSet.isMutatorFree last = false ∨ h.canAllocateFrom last = false
        · rw [if_pos hbad]
          have hskip : ∀ b, beg ≤ b → b ≤ last → ¬h.FreeRun b num := by
            intro b hb hle' hrun
            exact (hrun.of_mem hle' (by omega)).2 hbad
          have hrest := ih (Nat.le_refl (last + 1)) (by omega) (by omega)
          split at hrest
          · intro b hb hlt
            rcases Nat.lt_or_ge last b with hpast | hbefore
            · exact hrest b hpast hlt
            · exact hskip b hb hbefore
          · intro b hb
            rcases Nat.lt_or_ge last b with hpast | hbefore
            · exact hrest b hpast
            · exact hskip b hb hbefore
        · rw [if_neg hbad]
          by_cases hnum : last - beg + 1 = num
          · rw [if_pos hnum]
            intro b hb hlt
            omega
          · rw [if_neg hnum]
            exact ih (by omega) (by omega) (by omega)

-- The early exit: a run needs as many free bits as it has regions.
theorem FreeRun.le_mutatorCount {b num : Nat} (hrun : h.FreeRun b num)
    (hmax : h.freeSet.max = h.numRegions) : num ≤ h.freeSet.mutatorCount := by
  have hsub : List.range' b num ⊆ (List.range h.freeSet.max).filter h.freeSet.mutatorFreeBitmap := by
    intro j hj
    obtain ⟨hl, hr⟩ := List.mem_range'_1.mp hj
    obtain ⟨hlt, hfree, _⟩ := hrun j hl hr
    apply List.mem_filter.mpr
    exact ⟨List.mem_range.mpr (by omega), hfree⟩
  have hlength := (List.subperm_of_subset List.nodup_range' hsub).length_le
  rwa [List.length_range'] at hlength

theorem Searchable.search {num : Nat} (hs : h.Searchable) (hpos : 0 < num) :
    match h.findRun num (h.freeSet.max + 1) h.freeSet.mutatorLeftmost
      h.freeSet.mutatorLeftmost with
    | some found => h.FreeRun found num ∧ ∀ b, b < found → ¬h.FreeRun b num
    | none => ∀ b, ¬h.FreeRun b num := by
  have hmax := hs.max_eq
  have hleft : ∀ b, h.FreeRun b num → h.freeSet.mutatorLeftmost ≤ b := by
    intro b hrun
    obtain ⟨_, hfree, _⟩ := hrun b (Nat.le_refl b) (by omega)
    exact (hs.within b hfree).1
  have hfirst := @findRun_first h num (h.freeSet.max + 1) _ _ hmax
    (Nat.le_refl h.freeSet.mutatorLeftmost) (by omega) (by omega)
  split at hfirst
  · rename_i found hfound
    obtain ⟨_, hrun⟩ := findRun_spec (Nat.le_refl _) (fun j hl hr => by omega) hfound
    refine ⟨fun j hl hr => ?_, fun b hlt hfree => hfirst b (hleft b hfree) hlt hfree⟩
    rw [← hmax]
    exact hrun j hl hr
  · exact fun b hfree => hfirst b (hleft b hfree) hfree

end Search

section Claim

-- What a successful request does to the regions and their bits.
structure Claims (h h' : Heap) (beg num : Nat) : Prop where
  start : (h'.regions beg).typ = .humongousStart
  cont : ∀ j, beg < j → j < beg + num → (h'.regions j).typ = .humongousCont
  used : ∀ j, beg ≤ j → j < beg + num → (h'.regions j).used = h.opts.regionSizeBytes
  cleared : ∀ j, beg ≤ j → j < beg + num → h'.freeSet.isMutatorFree j = false
  frame : ∀ j, (h.regions j).SameFrame (h'.regions j)
  regions_eq : ∀ j, j < beg ∨ beg + num ≤ j → h'.regions j = h.regions j
  bits_eq : ∀ j, j < beg ∨ beg + num ≤ j →
    h'.freeSet.isMutatorFree j = h.freeSet.isMutatorFree j

theorem claimRun_isMutatorFree (h : Heap) (beg num j : Nat) :
    (h.claimRun beg num).freeSet.isMutatorFree j =
      if beg ≤ j ∧ j < beg + num then false else h.freeSet.isMutatorFree j := by
  have hloop : ∀ (indices : List Nat) (g : Heap),
      (indices.foldl (fun h i => h.claimHumongous beg i) g).freeSet.isMutatorFree j =
        if j ∈ indices then false else g.freeSet.isMutatorFree j := by
    intro indices
    induction indices with
    | nil => exact fun g => rfl
    | cons i rest ih =>
        intro g
        rw [List.foldl_cons, ih]
        by_cases hj : j = i
        · subst hj
          simp [claimHumongous_isMutatorFree]
        · rw [((claimHumongous_touchesOnly g beg i).others j hj).2]
          simp [hj]
  have hrun := hloop (List.range' beg num) h
  simpa [claimRun, List.mem_range'_1] using hrun

theorem claimHumongous_used (h : Heap) (beg i : Nat) :
    ((h.claimHumongous beg i).regions i).used = h.opts.regionSizeBytes := by
  have hopts := (TouchesOnly.tryRecycleTrashed h i).opts_eq
  simp [claimHumongous, hopts]

theorem claims_finishContiguous (h : Heap) (req : AllocRequest) (beg : Nat) {num : Nat}
    (hpos : 0 < num) : h.Claims ((h.claimRun beg num).finishContiguous req beg num).2 beg num := by
  obtain ⟨_, _, hregions, _, _, _, hbits, _⟩ :=
    finishContiguous_eq (h.claimRun beg num) req beg num
  have hregion : ∀ j, beg ≤ j → j < beg + num →
      ((h.claimRun beg num).finishContiguous req beg num).2.regions j =
        (h.claimHumongous beg j).regions j := by
    intro j hl hr
    rw [hregions, (claimRun_regions h beg num j).2, if_pos ⟨hl, hr⟩]
  have hother : ∀ j, j < beg ∨ beg + num ≤ j →
      ((h.claimRun beg num).finishContiguous req beg num).2.regions j = h.regions j := by
    intro j hj
    rw [hregions, (claimRun_regions h beg num j).2, if_neg (by omega)]
  refine ⟨?_, ?_, ?_, ?_, ?_, hother, ?_⟩
  · rw [hregion beg (Nat.le_refl beg) (by omega), (claimHumongous_region h beg beg).1, if_pos rfl]
  · intro j hl hr
    rw [hregion j (by omega) hr, (claimHumongous_region h beg j).1, if_neg (by omega)]
  · intro j hl hr
    rw [hregion j hl hr, claimHumongous_used]
  · intro j hl hr
    rw [hbits, claimRun_isMutatorFree, if_pos ⟨hl, hr⟩]
  · intro j
    by_cases hj : beg ≤ j ∧ j < beg + num
    · rw [hregion j hj.1 hj.2]
      exact (claimHumongous_touchesOnly h beg j).frame
    · rw [hother j (by omega)]
      exact HeapRegion.SameFrame.refl _
  · intro j hj
    rw [hbits, claimRun_isMutatorFree, if_neg (by omega)]

end Claim

section Allocate

variable {req : AllocRequest}

-- Either there is no run and nothing changes, or the first one is claimed.
theorem Searchable.allocateContiguous_cases (hs : h.Searchable) (req : AllocRequest) (hpos : 0 < req.size) :
    ((∀ b, ¬h.FreeRun b (h.opts.requiredRegions req.size)) ∧
        h.allocateContiguous req = (⟨none, req, true⟩, h)) ∨
      ∃ beg, h.FreeRun beg (h.opts.requiredRegions req.size) ∧
        (∀ b, b < beg → ¬h.FreeRun b (h.opts.requiredRegions req.size)) ∧
        (h.allocateContiguous req).1.mem = some (h.regions beg).bottom ∧
        h.Claims (h.allocateContiguous req).2 beg (h.opts.requiredRegions req.size) := by
  have hnum := hs.geometry.requiredRegions_pos hpos
  have hsearch := hs.search hnum
  unfold allocateContiguous
  simp only
  by_cases hcount : h.freeSet.mutatorCount < h.opts.requiredRegions req.size
  · rw [if_pos hcount]
    refine Or.inl ⟨fun b hrun => ?_, rfl⟩
    have hle := hrun.le_mutatorCount hs.max_eq
    omega
  · rw [if_neg hcount]
    cases hfound : h.findRun (h.opts.requiredRegions req.size) (h.freeSet.max + 1)
        h.freeSet.mutatorLeftmost h.freeSet.mutatorLeftmost with
    | none =>
        rw [hfound] at hsearch
        exact Or.inl ⟨hsearch, rfl⟩
    | some beg =>
        rw [hfound] at hsearch
        have hclaims := claims_finishContiguous h req beg hnum
        refine Or.inr ⟨beg, hsearch.1, hsearch.2, ?_, hclaims⟩
        obtain ⟨_, _, hregions, _⟩ := finishContiguous_eq
          (h.claimRun beg (h.opts.requiredRegions req.size)) req beg
          (h.opts.requiredRegions req.size)
        simp only [finishContiguous_result]
        rw [← hregions, (hclaims.frame beg).bottom_eq]

theorem Searchable.touch {i : Nat} (hs : h.Searchable) (ht : h.TouchesOnly h' i) :
    h'.Searchable where
  geometry := by
    rw [ht.opts_eq]
    exact hs.geometry
  max_eq := by
    unfold numRegions
    rw [ht.max_eq, ht.opts_eq]
    exact hs.max_eq
  within := ht.within hs.within

-- The next request finds the free set as it has to be.
theorem Searchable.allocateContiguous (hs : h.Searchable) (req : AllocRequest) :
    (h.allocateContiguous req).2.Searchable := by
  have hloop : ∀ (beg : Nat) (indices : List Nat) (g : Heap), g.Searchable →
      (indices.foldl (fun h i => h.claimHumongous beg i) g).Searchable := by
    intro beg indices
    induction indices with
    | nil => exact fun g hg => hg
    | cons i rest ih => exact fun g hg => ih _ (hg.touch (claimHumongous_touchesOnly g beg i))
  rcases Heap.allocateContiguous_cases h req with heq | ⟨beg, _, heq⟩
  · rw [heq]
    exact hs
  · rw [heq]
    have hclaimed := hloop beg (List.range' beg (h.opts.requiredRegions req.size)) h hs
    obtain ⟨hopts, _, _, hmax, _, _, _, hwithin⟩ := finishContiguous_eq
      (h.claimRun beg (h.opts.requiredRegions req.size)) req beg (h.opts.requiredRegions req.size)
    refine ⟨?_, ?_, hwithin hclaimed.within⟩
    · rw [hopts]
      exact hclaimed.geometry
    · unfold numRegions
      rw [hmax, hopts]
      exact hclaimed.max_eq

end Allocate

section Wrapping

-- `allocate_contiguous` behind the computation of `num`.
def allocateRegions (h : Heap) (req : AllocRequest) (num : Nat) : AllocResult × Heap :=
  if h.freeSet.mutatorCount < num then (⟨none, req, true⟩, h)
  else match h.findRun num (h.freeSet.max + 1) h.freeSet.mutatorLeftmost
      h.freeSet.mutatorLeftmost with
    | none => (⟨none, req, true⟩, h)
    | some beg => (h.claimRun beg num).finishContiguous req beg num

-- No window has length zero.
theorem findRun_zero (h : Heap) (fuel beg last : Nat) : h.findRun 0 fuel beg last = none := by
  induction fuel generalizing beg last with
  | zero => rfl
  | succ fuel ih =>
      unfold findRun
      split
      · rfl
      · split
        · exact ih _ _
        · rw [if_neg (by omega)]
          exact ih _ _

-- For a size within a region of the end of `usize` the sum in `required_regions`
-- wraps, and no region is asked for; the request fails as it should.
theorem allocateRegions_wrapped {req : AllocRequest} (hs : h.Searchable)
    (hsize : req.size < usizeRange) (hfit : h.opts.maxHeapSize < usizeRange) :
    h.allocateRegions req
        (wrap (req.size + h.opts.regionSizeBytes - 1) >>> h.opts.regionSizeBytesShift) =
      h.allocateContiguous req := by
  have hpos := hs.geometry.size_pos
  have hlt := hs.geometry.size_lt
  by_cases hsmall : req.size + h.opts.regionSizeBytes - 1 < usizeRange
  · have hwrap : wrap (req.size + h.opts.regionSizeBytes - 1) =
        req.size + h.opts.regionSizeBytes - 1 := Nat.mod_eq_of_lt hsmall
    rw [hwrap]
    rfl
  · have hwrap : wrap (req.size + h.opts.regionSizeBytes - 1) < h.opts.regionSizeBytes := by
      unfold wrap usizeRange at *
      omega
    have hzero : wrap (req.size + h.opts.regionSizeBytes - 1) >>> h.opts.regionSizeBytesShift =
        0 := by
      rw [Nat.shiftRight_eq_div_pow, ← hs.geometry.size_eq]
      exact Nat.div_eq_of_lt hwrap
    have hrange : usizeRange = 2 ^ (64 - h.opts.regionSizeBytesShift) * h.opts.regionSizeBytes := by
      rw [hs.geometry.size_eq, ← Nat.pow_add,
        Nat.sub_add_cancel (Nat.le_of_lt hs.geometry.shift_lt)]
      rfl
    have hmany : h.numRegions < h.opts.requiredRegions req.size := by
      rw [hs.geometry.heap_eq, hrange] at hfit
      have hcount := Nat.lt_of_mul_lt_mul_right hfit
      rw [hs.geometry.requiredRegions_eq]
      apply (Nat.le_div_iff_mul_le hpos).mpr
      exact (Nat.mul_le_mul_right _ hcount).trans (by omega)
    have hcount : h.freeSet.mutatorCount ≤ h.numRegions := by
      rw [← hs.max_eq]
      unfold RegionFreeSet.mutatorCount
      exact (List.length_filter_le _ _).trans (List.length_range).le
    unfold allocateRegions allocateContiguous
    simp only
    rw [hzero, findRun_zero, if_neg (Nat.not_lt_zero _), if_pos (by omega)]

end Wrapping

end Heap

end Rsgc.Storage
