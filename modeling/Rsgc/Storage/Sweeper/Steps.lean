import Rsgc.Storage.FreeSet.Bounds
import Rsgc.Storage.Sweeper

namespace Rsgc.Storage

namespace SweepState

variable {s s' : SweepState}

theorem closeGap_sameFrame {stop : Nat} (hok : s.closeGap stop = .ok s') :
    s.region.SameFrame s'.region ∧ s'.region.typ = s.region.typ := by
  unfold closeGap at hok
  split at hok
  · simp only [Except.bind_eq_ok, Except.pure_eq_ok] at hok
    obtain ⟨filled, hadd, rfl⟩ := hok
    obtain ⟨hframe, htyp⟩ := HeapRegion.addFree_sameFrame hadd
    exact ⟨hframe.trans ⟨rfl, rfl, rfl, rfl⟩, htyp⟩
  · rw [Except.pure_eq_ok] at hok
    subst hok
    exact ⟨HeapRegion.SameFrame.refl _, rfl⟩

end SweepState

theorem sweepLoop_sameFrame {words : Nat → Header} {marks : Nat → Bool} {stop fuel addr : Nat}
    {s s' : SweepState} (hok : sweepLoop words marks stop fuel addr s = .ok s') :
    s.region.SameFrame s'.region ∧ s'.region.typ = s.region.typ := by
  induction fuel generalizing addr s with
  | zero =>
      unfold sweepLoop at hok
      split at hok
      · rw [Except.pure_eq_ok] at hok
        subst hok
        exact ⟨HeapRegion.SameFrame.refl _, rfl⟩
      · simp at hok
  | succ fuel ih =>
      unfold sweepLoop at hok
      split at hok
      · rw [Except.pure_eq_ok] at hok
        subst hok
        exact ⟨HeapRegion.SameFrame.refl _, rfl⟩
      · simp only at hok
        split at hok
        · exact ih hok
        · simp only [Except.bind_eq_ok] at hok
          obtain ⟨closed, hclose, hloop⟩ := hok
          obtain ⟨hframe, htyp⟩ := SweepState.closeGap_sameFrame hclose
          obtain ⟨hframe', htyp'⟩ := ih hloop
          have hkeep : closed.region.SameFrame (closed.keep addr (words addr).size).region :=
            ⟨rfl, rfl, rfl, rfl⟩
          exact ⟨(hframe.trans hkeep).trans hframe', htyp'.trans htyp⟩

theorem sweepRegion_sameFrame {opts : HeapOptions} {marks : Nat → Bool} {r r' : HeapRegion}
    {empty : Bool} (hok : sweepRegion opts marks r = .ok (empty, r')) :
    r.SameFrame r' ∧ r'.typ = r.typ := by
  simp only [sweepRegion, Except.bind_eq_ok, Except.pure_eq_ok, Prod.mk.injEq] at hok
  obtain ⟨s, hblocks, closed, hclose, _, _, _, rfl⟩ := hok
  have hwalk : r.SameFrame s.region ∧ s.region.typ = r.typ := by
    unfold sweepBlocks at hblocks
    split at hblocks
    · obtain ⟨hframe, htyp⟩ := sweepLoop_sameFrame hblocks
      have hstart : r.SameFrame (sweepStart r).region := ⟨rfl, rfl, rfl, rfl⟩
      exact ⟨hstart.trans hframe, htyp⟩
    · rw [Except.pure_eq_ok] at hblocks
      subst hblocks
      exact ⟨⟨rfl, rfl, rfl, rfl⟩, rfl⟩
  obtain ⟨hframe, htyp⟩ := SweepState.closeGap_sameFrame hclose
  exact ⟨(hwalk.1.trans hframe).trans ⟨rfl, rfl, rfl, rfl⟩, htyp.trans hwalk.2⟩

namespace Heap

variable {h h' : Heap} {marks : Nat → Bool}

theorem trash_foldl (h : Heap) (indices : List Nat) :
    indices.foldl (fun h i => h.setRegion i (h.regions i).makeTrash) h =
      { h with regions := fun j =>
        if j ∈ indices then (h.regions j).makeTrash else h.regions j } := by
  induction indices generalizing h with
  | nil => simp
  | cons i rest ih =>
      rw [List.foldl_cons, ih]
      have hregions : (fun j => if j ∈ rest then
            ((h.setRegion i (h.regions i).makeTrash).regions j).makeTrash
          else (h.setRegion i (h.regions i).makeTrash).regions j) =
          fun j => if j ∈ i :: rest then (h.regions j).makeTrash else h.regions j := by
        funext j
        by_cases hj : j = i
        · subst hj
          simp [HeapRegion.makeTrash]
        · simp [hj]
      rw [hregions]
      rfl

theorem trashHumongousRegionAt_eq {start : Nat}
    (hok : h.trashHumongousRegionAt start = .ok h') :
    start + h.opts.requiredRegions ((h.regions start).words (h.regions start).bottom).size ≤
        h.numRegions ∧
      h' = { h with regions := fun j =>
        if start ≤ j ∧ j < start +
            h.opts.requiredRegions ((h.regions start).words (h.regions start).bottom).size
        then (h.regions j).makeTrash else h.regions j } := by
  simp only [trashHumongousRegionAt, Except.bind_eq_ok, Except.ensure_eq_ok,
    Except.pure_eq_ok] at hok
  obtain ⟨_, hle, rfl⟩ := hok
  refine ⟨hle, ?_⟩
  rw [trash_foldl]
  simp [List.mem_range'_1]

theorem trashHumongousRegionAt_effect {start : Nat}
    (hok : h.trashHumongousRegionAt start = .ok h') :
    h'.opts = h.opts ∧ h'.memStart = h.memStart ∧ h'.freeSet = h.freeSet ∧
      ∀ j, h'.regions j = h.regions j ∨ h'.regions j = (h.regions j).makeTrash := by
  obtain ⟨_, rfl⟩ := trashHumongousRegionAt_eq hok
  refine ⟨rfl, rfl, rfl, fun j => ?_⟩
  simp only
  split
  · exact Or.inr rfl
  · exact Or.inl rfl

theorem sweepPending_cases {i : Nat} (hok : h.sweepPending marks i = .ok h') :
    ((h.regions i).typ ≠ .regular ∧
        ((h.regions i).typ = .humongousStart → marks (h.regions i).bottom = true) ∧ h' = h) ∨
      ((h.regions i).typ = .humongousStart ∧ marks (h.regions i).bottom = false ∧
        h.trashHumongousRegionAt i = .ok h') ∨
      ((h.regions i).typ = .regular ∧ ∃ empty r,
        sweepRegion h.opts marks (h.regions i) = .ok (empty, r) ∧
        h' = h.setRegion i (if empty then r.makeTrash else r)) := by
  unfold sweepPending at hok
  simp only [HeapRegion.isHumongousStart, HeapRegion.isRegular, beq_iff_eq] at hok
  by_cases hstart : (h.regions i).typ = .humongousStart
  · rw [if_pos hstart] at hok
    by_cases hmark : marks (h.regions i).bottom = false
    · rw [if_pos hmark] at hok
      exact Or.inr (Or.inl ⟨hstart, hmark, hok⟩)
    · rw [if_neg hmark, Except.pure_eq_ok] at hok
      exact Or.inl ⟨by simp [hstart], fun _ => by simpa using hmark, hok.symm⟩
  · rw [if_neg hstart] at hok
    by_cases hregular : (h.regions i).typ = .regular
    · rw [if_pos hregular] at hok
      simp only [Except.bind_eq_ok, Except.pure_eq_ok] at hok
      obtain ⟨⟨empty, r⟩, hr, rfl⟩ := hok
      exact Or.inr (Or.inr ⟨hregular, empty, r, hr, rfl⟩)
    · rw [if_neg hregular, Except.pure_eq_ok] at hok
      exact Or.inl ⟨hregular, fun hs => absurd hs hstart, hok.symm⟩

theorem clearToSweep_regions (h : Heap) (i j : Nat) : (h.clearToSweep i).regions j =
    if j = i then { h.regions i with toSweep := false } else h.regions j := by
  simp [clearToSweep, Function.update_apply]

-- Everything a visit of the sweeper to region `i` can do.
theorem sweepRegionDo_cases {i : Nat} (hok : h.sweepRegionDo marks i = .ok h') :
    ((h.regions i).toSweep = false ∧ h' = h) ∨
    ((h.regions i).toSweep = true ∧
      (((h.regions i).typ ≠ .regular ∧
          ((h.regions i).typ = .humongousStart → marks (h.regions i).bottom = true) ∧
          h' = h.clearToSweep i) ∨
        ((h.regions i).typ = .humongousStart ∧ marks (h.regions i).bottom = false ∧
          (h.clearToSweep i).trashHumongousRegionAt i = .ok h') ∨
        ((h.regions i).typ = .regular ∧ ∃ empty r,
          sweepRegion h.opts marks { h.regions i with toSweep := false } = .ok (empty, r) ∧
          h' = (h.clearToSweep i).setRegion i (if empty then r.makeTrash else r)))) := by
  unfold sweepRegionDo at hok
  cases hsweep : (h.regions i).toSweep with
  | false =>
      rw [hsweep, if_neg (by simp), Except.pure_eq_ok] at hok
      exact Or.inl ⟨rfl, hok.symm⟩
  | true =>
      rw [if_pos hsweep] at hok
      have hregion : (h.clearToSweep i).regions i = { h.regions i with toSweep := false } := by
        rw [clearToSweep_regions, if_pos rfl]
      have hcases := sweepPending_cases hok
      rw [hregion] at hcases
      exact Or.inr ⟨rfl, hcases⟩

-- The sweeper clears the flag of the region it visits and no other, and moves no
-- region. Outside this region it only makes regions trash.
theorem sweepRegionDo_effect {i : Nat} (hok : h.sweepRegionDo marks i = .ok h') :
    h'.opts = h.opts ∧ h'.memStart = h.memStart ∧ h'.freeSet = h.freeSet ∧
      (∀ j, (h.regions j).bottom = (h'.regions j).bottom ∧
        (h.regions j).limit = (h'.regions j).limit ∧ (h.regions j).index = (h'.regions j).index) ∧
      (∀ j, (h'.regions j).toSweep = if j = i then false else (h.regions j).toSweep) ∧
      (∀ j, j ≠ i → h'.regions j = h.regions j ∨ h'.regions j = (h.regions j).makeTrash) := by
  rcases sweepRegionDo_cases hok with ⟨hsweep, rfl⟩ | ⟨_, ⟨_, _, rfl⟩ | ⟨_, _, htrash⟩ |
    ⟨_, empty, r, hr, rfl⟩⟩
  · refine ⟨rfl, rfl, rfl, fun _ => ⟨rfl, rfl, rfl⟩, fun j => ?_, fun _ _ => Or.inl rfl⟩
    by_cases hj : j = i
    · rw [if_pos hj, hj, hsweep]
    · rw [if_neg hj]
  · refine ⟨rfl, rfl, rfl, fun j => ?_, fun j => ?_, fun j hj => Or.inl ?_⟩
    · rw [clearToSweep_regions]
      split
      · rename_i hj
        rw [hj]
        exact ⟨rfl, rfl, rfl⟩
      · exact ⟨rfl, rfl, rfl⟩
    · rw [clearToSweep_regions]
      split <;> rfl
    · rw [clearToSweep_regions, if_neg hj]
  · obtain ⟨hopts, hmem, hfreeSet, hregions⟩ := trashHumongousRegionAt_effect htrash
    have hclear := clearToSweep_regions h i
    refine ⟨hopts, hmem, hfreeSet, fun j => ?_, fun j => ?_, fun j hj => ?_⟩
    · by_cases hj : j = i
      · subst hj
        rcases hregions j with heq | heq <;> rw [heq, hclear] <;> simp [HeapRegion.makeTrash]
      · rcases hregions j with heq | heq <;> rw [heq, hclear, if_neg hj] <;> exact ⟨rfl, rfl, rfl⟩
    · rcases hregions j with heq | heq <;> rw [heq, hclear] <;> split <;> rfl
    · have hsame : (h.clearToSweep i).regions j = h.regions j := by rw [hclear, if_neg hj]
      rw [← hsame]
      exact hregions j
  · obtain ⟨hframe, _⟩ := sweepRegion_sameFrame hr
    have hfinal : HeapRegion.SameFrame { h.regions i with toSweep := false }
        (if empty then r.makeTrash else r) := by
      split
      · exact hframe.trans ⟨rfl, rfl, rfl, rfl⟩
      · exact hframe
    refine ⟨rfl, rfl, rfl, fun j => ?_, fun j => ?_, fun j hj => Or.inl ?_⟩
    · by_cases hj : j = i
      · subst hj
        simp only [setRegion_regions, Function.update_self]
        exact ⟨hfinal.bottom_eq.symm, hfinal.limit_eq.symm, hfinal.index_eq.symm⟩
      · rw [setRegion_regions, Function.update_of_ne hj, clearToSweep_regions, if_neg hj]
        exact ⟨rfl, rfl, rfl⟩
    · by_cases hj : j = i
      · subst hj
        simp only [setRegion_regions, Function.update_self, if_true]
        exact hfinal.toSweep_eq
      · simp only [setRegion_regions, Function.update_of_ne hj, clearToSweep_regions, if_neg hj]
    · simp only [setRegion_regions, Function.update_of_ne hj, clearToSweep_regions, if_neg hj]

theorem Sound.sweepRegionDo {i : Nat} (hs : h.Sound) (hsize : h.opts.regionSizeBytes ≠ 0)
    (hok : h.sweepRegionDo marks i = .ok h') : h'.Sound := by
  obtain ⟨hopts, _, hfreeSet, _, hswept, hothers⟩ := sweepRegionDo_effect hok
  refine hs.restrict (by rw [hfreeSet]; exact hs.within) (fun j hj => by rwa [hfreeSet] at hj) ?_
  intro j _ ho
  by_cases hj : j = i
  · -- a region that is offered does not wait for the sweep
    subst hj
    rcases sweepRegionDo_cases hok with ⟨_, rfl⟩ | ⟨htrue, _⟩
    · exact ho
    · simp [ho.swept] at htrue
  · rcases hothers j hj with heq | heq
    · exact ho.congr hopts heq
    · refine ⟨?_, Or.inr ?_, ?_, ?_⟩
      · unfold numRegions
        rw [hopts]
        exact ho.lt
      · simp [heq, HeapRegion.makeTrash, HeapRegion.isTrash]
      · rw [heq]
        exact ho.swept
      · unfold allocCapacity
        rw [heq, hopts]
        simpa [HeapRegion.makeTrash, HeapRegion.allocCapacity, HeapRegion.isTrash] using hsize

-- The regions that `PrepareUnsweptRegions` hands to the sweeper.
def needsSweep (r : HeapRegion) : Bool := r.isRegular || r.isHumongousStart

theorem prepareUnswept_foldl (h : Heap) (indices : List Nat) :
    (indices.foldl prepareUnsweptRegion h).opts = h.opts ∧
      (indices.foldl prepareUnsweptRegion h).memStart = h.memStart ∧
      (indices.foldl prepareUnsweptRegion h).freeSet.max = h.freeSet.max ∧
      (h.freeSet.Within → (indices.foldl prepareUnsweptRegion h).freeSet.Within) ∧
      (∀ j, (indices.foldl prepareUnsweptRegion h).regions j =
        if j ∈ indices ∧ needsSweep (h.regions j) = true then
          { h.regions j with toSweep := true } else h.regions j) ∧
      (∀ j, (indices.foldl prepareUnsweptRegion h).freeSet.isMutatorFree j =
        (h.freeSet.isMutatorFree j && !(decide (j ∈ indices) && needsSweep (h.regions j)))) := by
  induction indices generalizing h with
  | nil => simp
  | cons i rest ih =>
      rw [List.foldl_cons]
      obtain ⟨hopts, hmem, hmax, hwithin, hregions, hbits⟩ := ih (h.prepareUnsweptRegion i)
      by_cases hneeds : needsSweep (h.regions i) = true
      · have hstep : h.prepareUnsweptRegion i =
            (h.setRegion i { h.regions i with toSweep := true }).setFreeSet
              (h.freeSet.setBit i false) := by
          unfold prepareUnsweptRegion
          rw [if_pos (by simpa [needsSweep] using hneeds)]
        rw [hstep] at hopts hmem hmax hwithin hregions hbits ⊢
        refine ⟨hopts, hmem, hmax, fun hw => hwithin (hw.clearBit i), fun j => ?_, fun j => ?_⟩
        · rw [hregions]
          by_cases hj : j = i
          · subst hj
            have hstill : needsSweep { h.regions j with toSweep := true } = true := hneeds
            simp [hstill, hneeds]
          · simp [hj]
        · rw [hbits]
          by_cases hj : j = i
          · subst hj
            simp [RegionFreeSet.isMutatorFree_setBit, hneeds]
          · simp [RegionFreeSet.isMutatorFree_setBit, hj]
      · have hstep : h.prepareUnsweptRegion i = h := by
          unfold prepareUnsweptRegion
          rw [if_neg (by simpa [needsSweep] using hneeds)]
        rw [hstep] at hopts hmem hmax hwithin hregions hbits ⊢
        refine ⟨hopts, hmem, hmax, hwithin, fun j => ?_, fun j => ?_⟩
        · rw [hregions]
          by_cases hj : j = i
          · subst hj
            simp [hneeds]
          · simp [hj]
        · rw [hbits]
          by_cases hj : j = i
          · subst hj
            simp [hneeds]
          · simp [hj]

theorem Sound.prepareUnsweptRegions (hs : h.Sound) : h.prepareUnsweptRegions.Sound := by
  obtain ⟨hopts, _, _, hwithin, hregions, hbits⟩ :=
    prepareUnswept_foldl h (List.range h.numRegions)
  refine hs.restrict (hwithin hs.within) ?_ ?_
  · intro j hj
    unfold Heap.prepareUnsweptRegions at hj
    rw [hbits] at hj
    simp only [Bool.and_eq_true] at hj
    exact hj.1
  · intro j hj ho
    unfold Heap.prepareUnsweptRegions at hj
    rw [hbits] at hj
    refine ho.congr hopts ?_
    unfold Heap.prepareUnsweptRegions
    rw [hregions, if_neg]
    rintro ⟨hin, hneeds⟩
    simp [hneeds, List.mem_range.mp hin] at hj

end Heap

end Rsgc.Storage
