import Rsgc.Storage.FreeSet.Commit
import Rsgc.Storage.Store.Layout

namespace Rsgc.Storage

namespace Heap

variable {c : HeapConfig} {h h' : Heap} {held : Nat → List Space}

theorem Commits.sameKind {i : Nat} {r : HeapRegion} (htyp : r.typ = (h.regions i).typ)
    (hframe : (h.regions i).SameFrame r) : h.Commits (h.setRegion i r) :=
  Commits.setRegion (HeapRegion.commitedSize_congr htyp hframe)

theorem Commits.setStartBit (h : Heap) (i addr : Nat) : h.Commits (h.setStartBit i addr) :=
  Commits.setRegion rfl

theorem Commits.writeHeader (h : Heap) (addr size : Nat) : h.Commits (h.writeHeader addr size) :=
  Commits.setRegion rfl

theorem Commits.zeroFill (h : Heap) (addr size : Nat) : h.Commits (h.zeroFill addr size) :=
  Commits.setRegion rfl

theorem Commits.markLive (h : Heap) (addr : Nat) : h.Commits (h.markLive addr) := by
  unfold Heap.markLive
  simp only
  split
  · exact Commits.refl h
  · exact Commits.setStartBit h _ addr

theorem Commits.retire {tlab tlab' : ThreadLocalAllocBuffer}
    (hok : tlab.retire h = .ok (tlab', h')) : h.Commits h' := by
  rcases ThreadLocalAllocBuffer.retire_cases hok with
    ⟨_, _, rfl⟩ | ⟨_, _, ⟨_, rfl⟩ | ⟨_, r, hadd, rfl⟩⟩
  · exact Commits.refl _
  · exact Commits.refl _
  · obtain ⟨hframe, htyp⟩ := HeapRegion.addFree_sameFrame hadd
    exact Commits.sameKind htyp hframe

theorem Commits.retireAll {tlabs tlabs' : List ThreadLocalAllocBuffer}
    (hok : retireAll tlabs h = .ok (tlabs', h')) : h.Commits h' := by
  induction tlabs generalizing h tlabs' with
  | nil =>
      simp only [Rsgc.Storage.retireAll, Except.pure_eq_ok, Prod.mk.injEq] at hok
      obtain ⟨_, rfl⟩ := hok
      exact Commits.refl _
  | cons tlab rest ih =>
      simp only [Rsgc.Storage.retireAll, Except.bind_eq_ok, Except.pure_eq_ok,
        Prod.mk.injEq] at hok
      obtain ⟨⟨_, mid⟩, hretire, ⟨_, last⟩, hrest, _, rfl⟩ := hok
      exact (Commits.retire hretire).trans (ih hrest)

theorem Commits.prepareUnsweptRegions (h : Heap) : h.Commits h.prepareUnsweptRegions := by
  have hone : ∀ (g : Heap) (i : Nat), g.Commits (g.prepareUnsweptRegion i) := by
    intro g i
    unfold Heap.prepareUnsweptRegion
    simp only
    split
    · exact (Commits.setRegion (by rfl)).trans (Commits.setFreeSet _ _)
    · exact Commits.refl g
  have hloop : ∀ (indices : List Nat) (g : Heap),
      g.Commits (indices.foldl Heap.prepareUnsweptRegion g) := by
    intro indices
    induction indices with
    | nil => exact fun g => Commits.refl g
    | cons i rest ih => exact fun g => (hone g i).trans (ih (g.prepareUnsweptRegion i))
  exact hloop (List.range h.numRegions) h

-- The regions of a humongous object are committed, so the sweep that frees them
-- does not change what the process holds.
theorem Commits.trashHumongous {i : Nat} (hl : h.Laid held) (hi : i < h.numRegions)
    (hstart : (h.regions i).typ = .humongousStart)
    (hok : h.trashHumongousRegionAt i = .ok h') : h.Commits h' := by
  obtain ⟨_, rfl⟩ := trashHumongousRegionAt_eq hok
  have hlayout := hl.region i hi
  unfold HeapRegion.Layout at hlayout
  rw [hstart] at hlayout
  obtain ⟨_, _, size, hheld, _, hword⟩ := hlayout
  obtain ⟨_, hconts⟩ := hl.run i hi hstart _ (by rw [hheld]; exact List.mem_singleton_self _)
  refine Commits.of_sizes rfl rfl fun j _ => ?_
  simp only [hword]
  split
  · rename_i hin
    have htyp : (h.regions j).typ ≠ .emptyUncommited := by
      rcases Nat.eq_or_lt_of_le hin.1 with rfl | hlt
      · simp [hstart]
      · simp [hconts j hlt hin.2]
    rw [HeapRegion.commitedSize_of_ne htyp,
      HeapRegion.commitedSize_of_ne (by simp [HeapRegion.makeTrash])]
    rfl
  · rfl

theorem Commits.sweepRegionDo {i : Nat} {marks : Nat → Bool} (hl : h.Laid held)
    (hi : i < h.numRegions) (hok : h.sweepRegionDo marks i = .ok h') : h.Commits h' := by
  have hclear : h.Commits (h.clearToSweep i) := Commits.setRegion rfl
  rcases sweepRegionDo_cases hok with ⟨_, rfl⟩ | ⟨_, ⟨_, _, rfl⟩ | ⟨hstart, _, htrash⟩ |
    ⟨hregular, empty, r, hr, rfl⟩⟩
  · exact Commits.refl _
  · exact hclear
  · refine hclear.trans (Commits.trashHumongous (clearToSweep_laid hl i) hi ?_ htrash)
    rw [clearToSweep_regions, if_pos rfl]
    exact hstart
  · refine hclear.trans (Commits.setRegion ?_)
    obtain ⟨hframe, htyp⟩ := sweepRegion_sameFrame hr
    rw [clearToSweep_regions, if_pos rfl, ← HeapRegion.commitedSize_congr htyp hframe]
    have hne : r.typ ≠ .emptyUncommited := by
      rw [htyp]
      simp [hregular]
    split
    · rw [HeapRegion.commitedSize_of_ne hne,
        HeapRegion.commitedSize_of_ne (by simp [HeapRegion.makeTrash])]
      rfl
    · rfl

end Heap

namespace Store

variable {c : HeapConfig} {mode : BarrierMode} {s t : Store}

theorem retireTlabs_commits (hok : s.retireTlabs = .ok t) : s.heap.Commits t.heap := by
  obtain ⟨tlabs, heap, hretire, rfl⟩ := retireTlabs_eq_ok hok
  exact Heap.Commits.retireAll hretire

theorem sweepIndex_commits (ht : s.Tidy c) {i : Nat} (hi : i ∈ s.unswept)
    (hok : s.sweepIndex i = .ok t) : s.heap.Commits t.heap := by
  obtain ⟨heap, hsweep, rfl⟩ := sweepIndex_eq_ok hok
  have hlt : i < s.heap.numRegions := by
    rw [ht.placed.numRegions_eq]
    exact ht.pending i hi
  exact Heap.Commits.sweepRegionDo ht.laid hlt hsweep

theorem finish_commits (hok : s.finish = .ok t) : s.heap.Commits t.heap := by
  obtain ⟨heap, hrebuild, rfl⟩ := finish_eq_ok hok
  obtain ⟨fs, heq, _⟩ := s.heap.rebuild_eq
  obtain rfl : s.heap.setFreeSet fs = heap := by
    rw [heq] at hrebuild
    exact Except.ok.inj hrebuild
  exact Heap.Commits.setFreeSet s.heap fs

-- The collector and the mutators commit what they take and uncommit nothing.
theorem step_commits {e : StoreEvent} (ho : s.Offers c) (ht : s.Tidy c)
    (hstep : s.step mode e = some t) : s.heap.Commits t.heap := by
  obtain ⟨henabled, hok⟩ := step_eq_some.mp hstep
  cases e with
  | register | mark addr | unmark addr | skip index | cancel | abort =>
      obtain rfl := Except.ok.inj hok
      exact Heap.Commits.refl _
  | bump thread size =>
      simp only [perform] at hok
      split at hok
      · obtain rfl := Except.ok.inj hok
        exact Heap.Commits.refl _
      · rename_i mem tlab heap halloc
        obtain rfl := Except.ok.inj hok
        obtain ⟨_, _, _, index, _, rfl⟩ := ThreadLocalAllocBuffer.allocate_cases halloc
        exact (Heap.Commits.setStartBit s.heap index _).trans
          (Heap.Commits.writeHeader _ mem size)
  | refill thread size =>
      simp only [perform, Except.bind_eq_ok] at hok
      obtain ⟨⟨found, heap⟩, hrefill, hok⟩ := hok
      obtain ⟨result, mid, halloc, ⟨_, hnone, rfl⟩ | ⟨mem, _, hsome, rfl⟩⟩ :=
        Heap.refill_cases hrefill
      · subst hnone
        obtain rfl := Except.ok.inj hok
        exact Heap.Commits.allocate ho.sound halloc
      · subst hsome
        obtain rfl := Except.ok.inj hok
        have hfill := (Heap.Commits.allocate ho.sound halloc).trans
          (Heap.Commits.zeroFill mid mem result.req.actualSize)
        exact (hfill.trans (Heap.Commits.setStartBit _ _ mem)).trans
          (Heap.Commits.writeHeader _ mem size)
  | retire thread =>
      simp only [perform, Except.bind_eq_ok, Except.pure_eq_ok] at hok
      obtain ⟨⟨tlab, heap⟩, hretire, rfl⟩ := hok
      exact Heap.Commits.retire hretire
  | shared size =>
      simp only [perform, Except.bind_eq_ok] at hok
      obtain ⟨⟨found, heap⟩, hshared, hok⟩ := hok
      obtain ⟨result, mid, halloc, hfound, ⟨hnone, rfl⟩ | ⟨mem, hsome, rfl⟩⟩ :=
        Heap.allocateOutsideTlab_cases hshared
      · rw [hnone] at hfound
        subst hfound
        obtain rfl := Except.ok.inj hok
        exact Heap.Commits.allocate ho.sound halloc
      · rw [hsome] at hfound
        subst hfound
        obtain rfl := Except.ok.inj hok
        exact ((Heap.Commits.allocate ho.sound halloc).trans (Heap.Commits.markLive mid mem)).trans
          (Heap.Commits.writeHeader _ mem size)
  | initMark =>
      simp only [perform, Except.bind_eq_ok, Except.pure_eq_ok] at hok
      obtain ⟨u, hretire, rfl⟩ := hok
      have hu := retireTlabs_commits hretire
      exact hu
  | finalMark =>
      simp only [perform, Except.bind_eq_ok, Except.pure_eq_ok] at hok
      obtain ⟨u, hretire, rfl⟩ := hok
      exact (retireTlabs_commits hretire).trans (Heap.Commits.prepareUnsweptRegions u.heap)
  | sweep index => exact sweepIndex_commits ht henabled.2 hok
  | stop marks =>
      simp only [perform, Except.bind_eq_ok, Except.pure_eq_ok] at hok
      obtain ⟨u, hretire, rfl⟩ := hok
      exact (retireTlabs_commits hretire).trans (Heap.Commits.prepareUnsweptRegions u.heap)
  | degenerate marks =>
      simp only [perform, Except.bind_eq_ok, Except.pure_eq_ok] at hok
      obtain ⟨u, hretire, rfl⟩ := hok
      have hu := retireTlabs_commits hretire
      exact hu
  | finishSweep | finishStopped => exact finish_commits hok

end Store

end Rsgc.Storage
