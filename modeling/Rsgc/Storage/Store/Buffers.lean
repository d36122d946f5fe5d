import Rsgc.Storage.Store.Pauses

namespace Rsgc.Storage

namespace Store

variable {c : HeapConfig} {mode : BarrierMode} {s t : Store}

-- A buffer with an unused tail lies in a region that does not wait for the sweep.
theorem Tidy.open_region_swept (ht : s.Tidy c) {tlab : ThreadLocalAllocBuffer}
    (htlab : tlab ∈ s.tlabs) (hopen : wrapSub tlab.limit tlab.top ≠ 0) :
    (s.heap.regions (s.heap.regionIndex tlab.start)).toSweep = false := by
  obtain rfl | ⟨i, hi, hbitmap, hindex, hstart, htop, hpos⟩ := ht.tlabs tlab htlab
  · exact absurd rfl hopen
  · have hlt : tlab.top < tlab.limit := by
      by_contra hge
      have heq : tlab.top = tlab.limit := by omega
      refine hopen ?_
      rw [heq]
      simp [wrapSub, wrap]
    rw [hindex]
    by_contra hsweep
    have hmem : (⟨tlab.top, tlab.limit - tlab.top, .tail⟩ : Space) ∈ held c s i := by
      refine List.mem_append_right _ (List.mem_flatMap.mpr ⟨tlab, htlab, ?_⟩)
      unfold ThreadLocalAllocBuffer.tail
      rw [if_pos ⟨hbitmap, hlt⟩]
      exact List.mem_singleton_self _
    exact ht.laid.idle i hi (by simpa using hsweep) _ hmem rfl

theorem tlab_eq_new {thread : Nat} (hge : s.tlabs.length ≤ thread) : s.tlab thread = .new :=
  List.getD_eq_default _ _ hge

theorem tlab_mem {thread : Nat} (hlt : thread < s.tlabs.length) : s.tlab thread ∈ s.tlabs := by
  unfold tlab
  rw [List.getD_eq_getElem s.tlabs .new hlt]
  exact List.getElem_mem hlt

theorem setTlab_tlab (s : Store) (thread other : Nat) (tlab : ThreadLocalAllocBuffer)
    (heap : Heap) : (s.setTlab thread tlab heap).tlab other =
      if thread = other ∧ thread < s.tlabs.length then tlab else s.tlab other := by
  unfold setTlab Store.tlab
  simp only [List.getD_eq_getElem?_getD, List.getElem?_set]
  by_cases heq : thread = other
  · subst heq
    by_cases hlt : thread < s.tlabs.length
    · simp [hlt]
    · simp [hlt]
  · simp [heq]

theorem setTlab_self {thread : Nat} {tlab : ThreadLocalAllocBuffer} (heq : s.tlab thread = tlab) :
    s.setTlab thread tlab s.heap = s := by
  unfold setTlab
  congr 1
  refine List.ext_getElem? fun i => ?_
  rw [List.getElem?_set]
  split
  · rename_i hi
    subst hi
    rw [← heq]
    unfold Store.tlab
    split
    · rename_i hlt
      rw [List.getD_eq_getElem _ _ hlt, List.getElem?_eq_getElem hlt]
    · rename_i hge
      rw [List.getElem?_eq_none (by omega)]
  · rfl

-- Only a pause closes the buffers of other threads.
theorem tlab_of_step {e : StoreEvent} {thread : Nat} (he : e.thread ≠ some thread)
    (hpause : e.isPause = false) (hstep : s.step mode e = some t) :
    t.tlab thread = s.tlab thread := by
  obtain ⟨henabled, hok⟩ := step_eq_some.mp hstep
  cases e with
  | register =>
      obtain rfl := Except.ok.inj hok
      unfold tlab
      simp only [List.getD_eq_getElem?_getD]
      by_cases hlt : thread < s.tlabs.length
      · rw [List.getElem?_append_left hlt]
      · have hnone : s.tlabs[thread]? = none := List.getElem?_eq_none (by omega)
        rw [List.getElem?_append_right (by omega), hnone]
        cases thread - s.tlabs.length <;> rfl
  | bump other size =>
      have hother : other ≠ thread := fun heq => he (by rw [← heq]; rfl)
      simp only [perform] at hok
      split at hok
      · obtain rfl := Except.ok.inj hok
        rfl
      · rename_i mem tlab heap halloc
        obtain rfl := Except.ok.inj hok
        exact (setTlab_tlab s other thread tlab heap).trans (by simp [hother])
  | refill other size =>
      have hother : other ≠ thread := fun heq => he (by rw [← heq]; rfl)
      simp only [perform, Except.bind_eq_ok] at hok
      obtain ⟨⟨found, heap⟩, _, hok⟩ := hok
      cases found with
      | none =>
          obtain rfl := Except.ok.inj hok
          rfl
      | some found =>
          obtain ⟨mem, tlab⟩ := found
          obtain rfl := Except.ok.inj hok
          exact (setTlab_tlab s other thread tlab heap).trans (by simp [hother])
  | retire other =>
      have hother : other ≠ thread := fun heq => he (by rw [← heq]; rfl)
      simp only [perform, Except.bind_eq_ok, Except.pure_eq_ok] at hok
      obtain ⟨⟨tlab, heap⟩, hretire, rfl⟩ := hok
      exact (setTlab_tlab s other thread tlab heap).trans (by simp [hother])
  | shared size =>
      simp only [perform, Except.bind_eq_ok] at hok
      obtain ⟨⟨found, heap⟩, _, hok⟩ := hok
      cases found <;> obtain rfl := Except.ok.inj hok <;> rfl
  | sweep index =>
      obtain ⟨heap, _, rfl⟩ := sweepIndex_eq_ok hok
      rfl
  | finishSweep | finishStopped =>
      obtain ⟨heap, _, rfl⟩ := finish_eq_ok hok
      rfl
  | mark | unmark | skip | cancel | abort =>
      obtain rfl := Except.ok.inj hok
      rfl
  | initMark | finalMark | stop | degenerate => cases hpause

-- A closed buffer is opened only by a refill.
theorem new_of_step {e : StoreEvent} {thread : Nat} (hnew : s.tlab thread = .new)
    (he : ¬ ∃ size, e = .refill thread size) (hpause : e.isPause = false)
    (hstep : s.step mode e = some t) : t.tlab thread = .new := by
  by_cases hthread : e.thread = some thread
  · obtain ⟨henabled, hok⟩ := step_eq_some.mp hstep
    cases e with
    | bump other size =>
        obtain rfl : other = thread := Option.some.inj hthread
        simp only [perform] at hok
        split at hok
        · obtain rfl := Except.ok.inj hok
          exact hnew
        · rename_i mem tlab heap halloc
          -- a closed buffer has no room
          obtain ⟨hroom, _⟩ := ThreadLocalAllocBuffer.allocate_cases halloc
          have hzero : wrapSub (s.tlab other).limit (s.tlab other).top = 0 := by
            rw [hnew]
            rfl
          have hpos := henabled.2.2.1
          omega
    | refill other size =>
        obtain rfl : other = thread := Option.some.inj hthread
        exact absurd ⟨size, rfl⟩ he
    | retire other =>
        obtain rfl : other = thread := Option.some.inj hthread
        simp only [perform, Except.bind_eq_ok, Except.pure_eq_ok] at hok
        obtain ⟨⟨tlab, heap⟩, hretire, rfl⟩ := hok
        rw [hnew] at hretire
        obtain ⟨rfl, rfl⟩ := Prod.mk.inj (Except.ok.inj hretire)
        rw [setTlab_self hnew]
        exact hnew
    | _ => cases hthread
  · rw [tlab_of_step hthread hpause hstep, hnew]

end Store

end Rsgc.Storage
